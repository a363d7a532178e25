import FieldWire.Varint
import Mathlib.Algebra.Order.Ring.Nat

/-! # Varints: one form for each value

A form of `n` bytes is determined by `n` and the value it carries (`form`), and `n` can be read off its first byte
(`decodedLength_of_form`). Every input that is long enough for its first byte starts with a form (`exists_form`), so
reading a varint is settled by what it does to forms (`decode_form_append`): it accepts the shortest form of a value
and nothing else (`decode_eq_ok_iff`). More bytes behind an input matter to it only if the input ends too early
(`decode_append`). -/

namespace FieldWire.Varint

/-! ### Forms -/

/-- The number of bits that a form of `n` bytes holds. -/
def capacity (n : Nat) : Nat := if n = maxLength then 64 else 7 * n

/-- The form of `n` bytes that carries `v`, be it the shortest or not. -/
def form (n v : Nat) : Bytes :=
  if n = maxLength then 0 :: littleEndian 8 v else littleEndian n ((2 * v + 1) <<< (n - 1))

/-- `n` is the length of the shortest form that holds `v`. -/
structure Shortest (n v : Nat) : Prop where
  pos : 0 < n
  le : n ≤ maxLength
  lt : v < 2 ^ capacity n
  least : 1 < n → 2 ^ (7 * (n - 1)) ≤ v

theorem form_maxLength (v : Nat) : form maxLength v = 0 :: littleEndian 8 v := rfl

theorem form_succ {k : Nat} (hk : k < 8) (v : Nat) : form (k + 1) v = littleEndian (k + 1) ((2 * v + 1) <<< k) := by
  have h : k + 1 ≠ maxLength := by simp only [maxLength]; omega
  simp only [form, h, ↓reduceIte, Nat.add_sub_cancel]

theorem capacity_of_le {n : Nat} (hle : n ≤ 8) : capacity n = 7 * n := by
  have h : n ≠ maxLength := by simp only [maxLength]; omega
  rw [capacity, if_neg h]

theorem capacity_succ {k : Nat} (hk : k < 8) : capacity (k + 1) = 7 * (k + 1) := capacity_of_le hk

theorem capacity_le {n : Nat} (hle : n ≤ maxLength) : capacity n ≤ 64 := by
  unfold capacity
  split
  · exact Nat.le_refl _
  · next h =>
    simp only [maxLength] at h hle
    omega

/-- A length of a form is the greatest, or one of the eight below it. -/
theorem length_cases {n : Nat} (hpos : 0 < n) (hle : n ≤ maxLength) : n = maxLength ∨ ∃ k, k < 8 ∧ n = k + 1 := by
  by_cases h : n = maxLength
  · exact Or.inl h
  · refine Or.inr ⟨n - 1, ?_, ?_⟩ <;> simp only [maxLength] at h hle <;> omega

theorem length_form {n : Nat} (hpos : 0 < n) (hle : n ≤ maxLength) (v : Nat) : (form n v).length = n := by
  rcases length_cases hpos hle with rfl | ⟨k, hk, rfl⟩
  · rw [form_maxLength, List.length_cons, length_littleEndian]
    rfl
  · rw [form_succ hk, length_littleEndian]

/-- What is held by the shortest form of a value is held by forms that are not so long. -/
theorem Shortest.lt_of_lt {m n v : Nat} (h : Shortest m v) (hlt : m < n) (hle : n ≤ maxLength) :
    v < 2 ^ (7 * (n - 1)) := by
  have hcap : capacity m ≤ 7 * (n - 1) := by
    rcases length_cases h.pos h.le with rfl | ⟨k, hk, rfl⟩
    · omega
    · rw [capacity_succ hk]
      omega
  exact Nat.lt_of_lt_of_le h.lt (Nat.pow_le_pow_right (by decide) hcap)

/-- No value but zero is shorter than its length. -/
theorem Shortest.le_of_pos {n v : Nat} (h : Shortest n v) (hv : 0 < v) : n ≤ v := by
  rcases Nat.lt_or_ge 1 n with hone | hone
  · have hlong := h.least hone
    have hpow : n - 1 < 2 ^ (7 * (n - 1)) :=
      Nat.lt_of_lt_of_le Nat.lt_two_pow_self (Nat.pow_le_pow_right (by decide) (by omega))
    omega
  · omega

theorem Shortest.unique {m n v : Nat} (hm : Shortest m v) (hn : Shortest n v) : m = n := by
  -- A shorter length would hold less than `v`.
  have le_of : ∀ {m n : Nat}, Shortest m v → Shortest n v → n ≤ m := by
    intro m n hm hn
    by_contra hlt
    have hpos := hm.pos
    exact absurd (hm.lt_of_lt (Nat.lt_of_not_le hlt) hn.le) (Nat.not_lt.mpr (hn.least (by omega)))
  exact Nat.le_antisymm (le_of hn hm) (le_of hm hn)

/-! ### Writing -/

theorem odd_shiftLeft_lt {k v : Nat} (hv : v < 2 ^ (7 * (k + 1))) : (2 * v + 1) <<< k < 2 ^ (8 * (k + 1)) := by
  rw [Nat.shiftLeft_eq, show 8 * (k + 1) = 7 * (k + 1) + 1 + k by omega, Nat.pow_add 2 (7 * (k + 1) + 1) k]
  refine Nat.mul_lt_mul_of_pos_right ?_ (Nat.two_pow_pos k)
  rw [Nat.pow_succ]
  omega

/-- The search for the length has come to `k + 1` bytes, and no fewer hold the value. -/
structure Search (v : UInt64) (k : Nat) (packed bound : UInt64) : Prop where
  packed_eq : packed.toNat = (2 * v.toNat + 1) <<< k % 2 ^ 64
  bound_eq : bound.toNat = 2 ^ (7 * (k + 1))
  least : 1 < k + 1 → 2 ^ (7 * k) ≤ v.toNat

namespace Search
variable {v : UInt64} {k : Nat} {packed bound : UInt64}

theorem start (v : UInt64) : Search v 0 (2 * v + 1) 128 where
  packed_eq := by
    rw [UInt64.toNat_add, UInt64.toNat_mul, Nat.shiftLeft_zero]
    exact Nat.mod_add_mod _ _ _
  bound_eq := rfl
  least h := absurd h (Nat.lt_irrefl 1)

theorem le_of_not_lt (h : Search v k packed bound) (hge : ¬v < bound) : 2 ^ (7 * (k + 1)) ≤ v.toNat := by
  rw [← h.bound_eq]
  exact UInt64.le_iff_toNat_le.mp (UInt64.not_lt.mp hge)

theorem next (h : Search v k packed bound) (hk : k < 7) (hge : ¬v < bound) :
    Search v (k + 1) (2 * packed) (128 * bound) where
  packed_eq := by
    rw [UInt64.toNat_mul, h.packed_eq, Nat.shiftLeft_succ]
    exact Nat.mul_mod_mod _ _ _
  bound_eq := by
    have hlt : 2 ^ (7 * (k + 1 + 1)) < 2 ^ 64 := Nat.pow_lt_pow_right (by decide) (by omega)
    rw [UInt64.toNat_mul, h.bound_eq, show (128 : UInt64).toNat = 2 ^ 7 from rfl, ← Nat.pow_add,
      show 7 + 7 * (k + 1) = 7 * (k + 1 + 1) by omega, Nat.mod_eq_of_lt hlt]
  least _ := h.le_of_not_lt hge

/-- A value below the bound is written in as many bytes as the search has come to. -/
theorem shortest (h : Search v k packed bound) (hk : k < 8) (hlt : v < bound) :
    Shortest (k + 1) v.toNat ∧ littleEndian (k + 1) packed.toNat = form (k + 1) v.toNat := by
  have hv : v.toNat < 2 ^ (7 * (k + 1)) := h.bound_eq ▸ UInt64.lt_iff_toNat_lt.mp hlt
  have hsmall : (2 * v.toNat + 1) <<< k < 2 ^ 64 :=
    Nat.lt_of_lt_of_le (odd_shiftLeft_lt hv) (Nat.pow_le_pow_right (by decide) (by omega))
  have hle : k + 1 ≤ maxLength := by
    rw [maxLength]
    omega
  refine ⟨⟨Nat.succ_pos k, hle, by rwa [capacity_succ hk], h.least⟩, ?_⟩
  rw [form_succ hk, h.packed_eq, Nat.mod_eq_of_lt hsmall]

/-- The search ends with the shortest form, whatever stands in front of it, and with its length. -/
theorem exists_appendFrom {more : Nat} (h : Search v k packed bound) (hk : k + more = 7) :
    ∃ n, Shortest n v.toNat ∧ ∀ buffer, appendFrom buffer v more packed bound = (buffer ++ form n v.toNat, n) := by
  induction more generalizing k packed bound with
  | zero =>
    obtain rfl : k = 7 := hk
    by_cases hlt : v < bound
    · obtain ⟨hshort, hform⟩ := h.shortest (by decide) hlt
      refine ⟨8, hshort, fun buffer => ?_⟩
      rw [appendFrom, if_pos hlt, hform]
    · refine ⟨maxLength, ⟨by decide, Nat.le_refl _, v.toNat_lt, fun _ => h.le_of_not_lt hlt⟩, fun buffer => ?_⟩
      rw [appendFrom, if_neg hlt, List.append_assoc, form_maxLength, List.singleton_append]
  | succ more ih =>
    by_cases hlt : v < bound
    · obtain ⟨hshort, hform⟩ := h.shortest (by omega) hlt
      refine ⟨k + 1, hshort, fun buffer => ?_⟩
      rw [appendFrom, if_pos hlt, show 7 - more = k + 1 by omega, hform]
    · obtain ⟨n, hn, happend⟩ := ih (h.next (by omega) hlt) (by omega)
      refine ⟨n, hn, fun buffer => ?_⟩
      rw [appendFrom, if_neg hlt, happend]

end Search

theorem exists_appendTo (v : UInt64) :
    ∃ n, Shortest n v.toNat ∧ ∀ buffer, appendTo buffer v = (buffer ++ form n v.toNat, n) :=
  (Search.start v).exists_appendFrom (Nat.zero_add 7)

/-- What is written is the shortest form. -/
theorem exists_shortest (v : UInt64) : ∃ n, Shortest n v.toNat ∧ encode v = form n v.toNat := by
  obtain ⟨n, hn, happend⟩ := exists_appendTo v
  exact ⟨n, hn, congrArg Prod.fst (happend [])⟩

/-! ### The first byte -/

/-- The low eight bits of a little-endian integer are those of its first byte. -/
theorem testBit_ofLittleEndian_cons (b : UInt8) (bs : Bytes) {j : Nat} (hj : j < 8) :
    (ofLittleEndian (b :: bs)).testBit j = b.toNat.testBit j := by
  have hb : b.toNat < 2 ^ 8 := b.toNat_lt
  rw [ofLittleEndian, Nat.add_comm, show 256 = 2 ^ 8 from rfl, Nat.testBit_two_pow_mul_add _ hb, if_pos hj]

/-- The lowest one bit of an odd number is moved by a shift to the place of the shift. -/
theorem testBit_odd_shiftLeft (v k : Nat) :
    ((2 * v + 1) <<< k).testBit k = true ∧ ∀ j < k, ((2 * v + 1) <<< k).testBit j = false := by
  refine ⟨?_, fun j hj => ?_⟩
  · simp [Nat.testBit_shiftLeft]
  · simp [Nat.testBit_shiftLeft, Nat.not_le.mpr hj]

/-- A number whose lowest one bit has the place `k` is an odd number shifted by `k`. -/
theorem eq_odd_shiftLeft {N k : Nat} (hbit : N.testBit k = true) (hlow : ∀ j < k, N.testBit j = false) :
    (2 * N >>> (k + 1) + 1) <<< k = N := by
  apply Nat.eq_of_testBit_eq
  intro j
  rw [Nat.testBit_shiftLeft]
  rcases Nat.lt_trichotomy j k with hj | rfl | hj
  · simp [hlow j hj, Nat.not_le.mpr hj]
  · simp [hbit]
  · obtain ⟨i, rfl⟩ : ∃ i, j = k + (i + 1) := ⟨j - k - 1, by omega⟩
    have hhalf : (2 * N >>> (k + 1) + 1) / 2 = N >>> (k + 1) := by omega
    rw [Nat.add_sub_cancel_left, Nat.testBit_succ, hhalf, Nat.testBit_shiftRight]
    simp only [ge_iff_le, Nat.le_add_right, decide_true, Bool.true_and]
    congr 1
    omega

theorem decodedLength_of_testBit {first : UInt8} {k : Nat} (hk : k < 8) (hbit : first.toNat.testBit k = true)
    (hlow : ∀ j < k, first.toNat.testBit j = false) : decodedLength first = k + 1 := by
  have h : (List.range 8).find? (fun i => first.toNat.testBit i) = some k :=
    List.find?_range_eq_some.mpr ⟨hbit, List.mem_range.mpr hk, fun j hj => by rw [hlow j hj]; rfl⟩
  rw [decodedLength, h]

/-- The first byte is zero and announces the greatest length, or its lowest one bit tells the length. -/
theorem decodedLength_cases (first : UInt8) : (first = 0 ∧ decodedLength first = maxLength) ∨
    ∃ k, k < 8 ∧ decodedLength first = k + 1 ∧ first.toNat.testBit k = true ∧
      ∀ j < k, first.toNat.testBit j = false := by
  cases hfind : (List.range 8).find? fun i => first.toNat.testBit i with
  | none =>
    have hbits := List.find?_range_eq_none.mp hfind
    have h0 : first.toNat = 0 := by
      apply Nat.eq_of_testBit_eq
      intro j
      rw [Nat.zero_testBit]
      by_cases hj : j < 8
      · simpa using hbits j hj
      · exact Nat.testBit_lt_two_pow (Nat.lt_of_lt_of_le first.toNat_lt (Nat.pow_le_pow_right (by decide) (by omega)))
    have hzero : first = 0 := UInt8.toNat_inj.mp h0
    exact Or.inl ⟨hzero, by rw [hzero]; rfl⟩
  | some k =>
    obtain ⟨hbit, hmem, hlow⟩ := List.find?_range_eq_some.mp hfind
    have hk : k < 8 := List.mem_range.mp hmem
    have hlow' : ∀ j < k, first.toNat.testBit j = false := fun j hj => by simpa using hlow j hj
    exact Or.inr ⟨k, hk, decodedLength_of_testBit hk hbit hlow', hbit, hlow'⟩

theorem decodedLength_le (first : UInt8) : decodedLength first ≤ maxLength := by
  rcases decodedLength_cases first with ⟨-, h⟩ | ⟨k, hk, h, -⟩
  · exact Nat.le_of_eq h
  · rw [h, maxLength]
    omega

/-! ### Reading forms -/

theorem ofLittleEndian_form_succ {k v : Nat} (hk : k < 8) (hv : v < 2 ^ (7 * (k + 1))) :
    ofLittleEndian (form (k + 1) v) = (2 * v + 1) <<< k := by
  rw [form_succ hk, ofLittleEndian_littleEndian, Nat.one_shiftLeft, Nat.mod_eq_of_lt (odd_shiftLeft_lt hv)]

theorem decodedLength_of_form {n v : Nat} (hpos : 0 < n) (hle : n ≤ maxLength) (hv : v < 2 ^ capacity n)
    {first : UInt8} {more : Bytes} (h : form n v = first :: more) : decodedLength first = n := by
  rcases length_cases hpos hle with rfl | ⟨k, hk, rfl⟩
  · rw [form_maxLength] at h
    cases h
    rfl
  · rw [capacity_succ hk] at hv
    have hbits : ∀ j < 8, first.toNat.testBit j = ((2 * v + 1) <<< k).testBit j := fun j hj => by
      rw [← ofLittleEndian_form_succ hk hv, h, testBit_ofLittleEndian_cons _ _ hj]
    obtain ⟨hbit, hlow⟩ := testBit_odd_shiftLeft v k
    exact decodedLength_of_testBit hk ((hbits k hk).trans hbit) fun j hj => (hbits j (by omega)).trans (hlow j hj)

theorem carried_form {n v : Nat} (hpos : 0 < n) (hle : n ≤ maxLength) (hv : v < 2 ^ capacity n) :
    carried (form n v) = v := by
  unfold carried
  rw [length_form hpos hle]
  rcases length_cases hpos hle with rfl | ⟨k, hk, rfl⟩
  · have hv' : v < 2 ^ 64 := hv
    have hmin : min maxLength 8 = 8 := rfl
    rw [form_maxLength, ofLittleEndian, ofLittleEndian_littleEndian, Nat.one_shiftLeft, Nat.mod_eq_of_lt hv', hmin,
      Nat.shiftRight_eq_div_pow, UInt8.toNat_zero]
    omega
  · rw [capacity_succ hk] at hv
    rw [ofLittleEndian_form_succ hk hv, Nat.min_eq_left (by omega), Nat.shiftRight_add, Nat.shiftLeft_shiftRight,
      Nat.shiftRight_one]
    omega

theorem decode_of_length_lt {first : UInt8} {more : Bytes} (h : (first :: more).length < decodedLength first) :
    decode (first :: more) = .error .varintCut := by
  rw [decode, splitExactly?_eq_none_iff.mpr h]

/-- What the reader makes of a form: it is refused if a shorter one would do. -/
theorem decode_form_append {n : Nat} {v : UInt64} (hpos : 0 < n) (hle : n ≤ maxLength) (hv : v.toNat < 2 ^ capacity n)
    (rest : Bytes) :
    decode (form n v.toNat ++ rest) =
      if 1 < n ∧ v.toNat < 2 ^ (7 * (n - 1)) then .error (.malformedVarint n) else .ok (v, rest) := by
  have hlen := length_form hpos hle v.toNat
  obtain ⟨first, more, hform⟩ := List.exists_cons_of_length_pos (hlen ▸ hpos)
  have hsplit : splitExactly? (decodedLength first) (form n v.toNat ++ rest) = some (form n v.toNat, rest) := by
    rw [decodedLength_of_form hpos hle hv hform]
    exact splitExactly?_eq_some_iff.mpr ⟨rfl, hlen⟩
  rw [hform, List.cons_append] at hsplit ⊢
  simp only [decode, hsplit]
  rw [← hform, carried_form hpos hle hv, hlen, Nat.one_shiftLeft, UInt64.ofNat_toNat]

/-! ### Forms at the front of an input -/

theorem form_maxLength_ofLittleEndian {bytes : Bytes} (hlen : bytes.length = 8) :
    ofLittleEndian bytes < 2 ^ capacity maxLength ∧ form maxLength (ofLittleEndian bytes) = 0 :: bytes := by
  have hlt := ofLittleEndian_lt bytes
  have hback := littleEndian_ofLittleEndian bytes
  rw [hlen] at hlt hback
  rw [Nat.one_shiftLeft] at hlt
  exact ⟨hlt, by rw [form_maxLength, hback]⟩

theorem form_succ_ofLittleEndian {k : Nat} {first : UInt8} {more : Bytes} (hk : k < 8) (hlen : more.length = k)
    (hbit : first.toNat.testBit k = true) (hlow : ∀ j < k, first.toNat.testBit j = false) :
    ofLittleEndian (first :: more) >>> (k + 1) < 2 ^ capacity (k + 1) ∧
      form (k + 1) (ofLittleEndian (first :: more) >>> (k + 1)) = first :: more := by
  have hodd : (2 * ofLittleEndian (first :: more) >>> (k + 1) + 1) <<< k = ofLittleEndian (first :: more) :=
    eq_odd_shiftLeft ((testBit_ofLittleEndian_cons _ _ hk).trans hbit) fun j hj =>
      (testBit_ofLittleEndian_cons _ _ (by omega)).trans (hlow j hj)
  have hlt := ofLittleEndian_lt (first :: more)
  have hback := littleEndian_ofLittleEndian (first :: more)
  rw [List.length_cons, hlen] at hlt hback
  rw [Nat.one_shiftLeft, show 8 * (k + 1) = (k + 1) + 7 * (k + 1) by omega, Nat.pow_add] at hlt
  refine ⟨?_, by rw [form_succ hk, hodd, hback]⟩
  rw [capacity_succ hk, Nat.shiftRight_eq_div_pow]
  exact Nat.div_lt_of_lt_mul hlt

/-- An input that is as long as its first byte says starts with a form of that length. Whatever such a form holds is an
    integer of 64 bits. -/
theorem exists_form {first : UInt8} {more : Bytes} (h : decodedLength first ≤ (first :: more).length) :
    ∃ (v : UInt64) (rest : Bytes), v.toNat < 2 ^ capacity (decodedLength first) ∧
      first :: more = form (decodedLength first) v.toNat ++ rest := by
  obtain ⟨v, rest, hv, happ⟩ : ∃ v rest, v < 2 ^ capacity (decodedLength first) ∧
      first :: more = form (decodedLength first) v ++ rest := by
    rcases decodedLength_cases first with ⟨rfl, hd⟩ | ⟨k, hk, hd, hbit, hlow⟩
    · rw [hd] at h ⊢
      obtain ⟨hlt, hform⟩ := form_maxLength_ofLittleEndian (List.length_take_of_le (Nat.le_of_succ_le_succ h))
      refine ⟨_, more.drop 8, hlt, ?_⟩
      rw [hform, List.cons_append, List.take_append_drop]
    · rw [hd] at h ⊢
      obtain ⟨hlt, hform⟩ :=
        form_succ_ofLittleEndian hk (List.length_take_of_le (Nat.le_of_succ_le_succ h)) hbit hlow
      refine ⟨_, more.drop k, hlt, ?_⟩
      rw [hform, List.cons_append, List.take_append_drop]
  have hback : (UInt64.ofNat v).toNat = v := UInt64.toNat_ofNat_of_lt'
    (Nat.lt_of_lt_of_le hv (Nat.pow_le_pow_right (by decide) (capacity_le (decodedLength_le first))))
  exact ⟨UInt64.ofNat v, rest, by rwa [hback], by rwa [hback]⟩

/-! ### Reading -/

/-- Reading accepts what writing produces, with any bytes behind it, and nothing else. -/
theorem decode_eq_ok_iff {input rest : Bytes} {v : UInt64} :
    decode input = .ok (v, rest) ↔ input = encode v ++ rest := by
  constructor
  · intro h
    match input with
    | [] => cases h
    | first :: more =>
      have hpos := decodedLength_pos first
      have hle := decodedLength_le first
      by_cases hlen : decodedLength first ≤ (first :: more).length
      · obtain ⟨w, rest', hw, happ⟩ := exists_form hlen
        rw [happ] at h ⊢
        rw [decode_form_append hpos hle hw] at h
        split at h
        · cases h
        · next hleast =>
          cases h
          have hshort : Shortest (decodedLength first) v.toNat :=
            ⟨hpos, hle, hw, fun hone => Nat.le_of_not_lt fun hlt => hleast ⟨hone, hlt⟩⟩
          obtain ⟨n, hn, henc⟩ := exists_shortest v
          rw [henc, hn.unique hshort]
      · rw [decode_of_length_lt (Nat.lt_of_not_le hlen)] at h
        cases h
  · rintro rfl
    obtain ⟨n, hn, henc⟩ := exists_shortest v
    have hleast : ¬(1 < n ∧ v.toNat < 2 ^ (7 * (n - 1))) := fun h => absurd (hn.least h.1) (Nat.not_le.mpr h.2)
    rw [henc, decode_form_append hn.pos hn.le hn.lt, if_neg hleast]

theorem decode_eq_error_cases {input : Bytes} {e : Error} (h : decode input = .error e) :
    e = .varintMissing ∨ e = .varintCut ∨ ∃ length, e = .malformedVarint length := by
  rcases input with _ | ⟨first, more⟩
  · cases h
    exact Or.inl rfl
  · rw [decode] at h
    split at h
    · cases h
      exact Or.inr (Or.inl rfl)
    · dsimp only at h
      split at h <;> cases h
      exact Or.inr (Or.inr ⟨_, rfl⟩)

theorem read_eq_ok_iff {input rest : Bytes} {v : UInt64} :
    read input = (.ok v, rest) ↔ input = encode v ++ rest := by
  rw [← decode_eq_ok_iff]
  unfold read
  split
  · next hd => simp [hd]
  · next hd => simp [hd]

theorem decode_encode_append (v : UInt64) (rest : Bytes) : decode (encode v ++ rest) = .ok (v, rest) :=
  decode_eq_ok_iff.mpr rfl

theorem read_encode_append (v : UInt64) (rest : Bytes) : read (encode v ++ rest) = (.ok v, rest) :=
  read_eq_ok_iff.mpr rfl

theorem encode_ne_nil (v : UInt64) : encode v ≠ [] := by
  obtain ⟨n, hn, henc⟩ := exists_shortest v
  intro hnil
  have hlen := length_form hn.pos hn.le v.toNat
  rw [← henc, hnil, List.length_nil] at hlen
  exact absurd hn.pos (by omega)

/-! ### Bytes behind a varint -/

/-- Bytes behind a varint change nothing about it, unless it is cut off. -/
theorem decode_append (input more : Bytes) : (∃ what, decode input = .error (.truncated what)) ∨
    decode (input ++ more) = (decode input).map fun x => (x.1, x.2 ++ more) := by
  rcases input with _ | ⟨first, tail⟩
  · exact Or.inl ⟨_, rfl⟩
  · by_cases hlen : decodedLength first ≤ (first :: tail).length
    · -- The form is there in full, so it is judged without the bytes behind it.
      right
      obtain ⟨v, rest, hv, happ⟩ := exists_form hlen
      have hpos := decodedLength_pos first
      have hle := decodedLength_le first
      rw [happ, List.append_assoc, decode_form_append hpos hle hv, decode_form_append hpos hle hv]
      split <;> rfl
    · exact Or.inl ⟨_, decode_of_length_lt (Nat.lt_of_not_le hlen)⟩

theorem read_append (input more : Bytes) : (∃ what, (read input).1 = .error (.truncated what)) ∨
    read (input ++ more) = ((read input).1, (read input).2 ++ more) := by
  rcases decode_append input more with ⟨what, hcut⟩ | happ
  · exact Or.inl ⟨what, by rw [read, hcut]⟩
  · right
    rw [read, read, happ]
    cases decode input <;> rfl

end FieldWire.Varint
