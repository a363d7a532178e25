import FieldWire.Proofs.Parser.Grammar

/-! # More bytes behind an input

What stands at the front of an input does not depend on the bytes behind it, unless the input is cut off there
(`head_append`). So an input is read as if it stood alone, and then what follows it is read (`fields_append`). A message
that is accepted leaves off where its end does in a longer message (`level_append`), and one that is refused for more
than that it is cut off is refused alike in a longer message (`level_append_of_error`). -/

namespace FieldWire.ParseStep
variable {σ ρ : Type} {handler : Handler σ ρ} {limits narrow wide : Limits}

/-! ### The front of a longer input -/

namespace Head

/-- The input ends before the field at its front does. -/
def Cut : Head → Prop
  | .noHeader e => ∃ what, e = .truncated what
  | .noPayload _ e => ∃ what, e.toError = .truncated what
  | _ => False

/-- What stands at the front if more bytes follow. -/
def followedBy (more : Bytes) : Head → Head
  | .nothing => head more
  | .field id payload rest => .field id payload (rest ++ more)
  | stuck => stuck

end Head

theorem head_append (input more : Bytes) :
    (head input).Cut ∨ head (input ++ more) = (head input).followedBy more := by
  by_cases hnil : input = []
  · rw [hnil, head_eq_nothing_iff.mpr rfl]
    exact Or.inr rfl
  · rw [head, head, if_neg hnil, if_neg (List.append_ne_nil_of_left_ne_nil hnil more)]
    rcases FieldHeader.read_append input more with ⟨what, hcut⟩ | happ
    · rcases hread : FieldHeader.read input with ⟨e | header, rest⟩ <;> rw [hread] at hcut <;> cases hcut
      exact Or.inl ⟨what, rfl⟩
    · rw [happ]
      rcases FieldHeader.read input with ⟨e | ⟨id, t⟩, rest⟩
      · exact Or.inr rfl
      · dsimp only
        rcases Payload.read_append t rest more with ⟨e, what, hcut, hwhat⟩ | happ'
        · rcases hread : Payload.read t rest with ⟨e' | payload, after⟩ <;> rw [hread] at hcut <;> cases hcut
          exact Or.inl ⟨what, hwhat⟩
        · rw [happ']
          rcases Payload.read t rest with ⟨e | payload, after⟩
          · exact Or.inr rfl
          · exact Or.inr rfl

/-! ### Fields one after another -/

theorem reject_fst (e : PayloadError) (p : Progress σ) : (reject e p).1 = .error e.toError := by
  cases e <;> rfl

/-- An input that is cut off is refused for that. -/
theorem fields_of_cut {input : Bytes} (hcut : (head input).Cut) (p : Progress σ) :
    ∃ what, (fields handler limits input p).1 = .error (.truncated what) := by
  rw [fields_eq]
  generalize head input = front at hcut ⊢
  cases front with
  | nothing => cases hcut
  | noHeader e =>
    obtain ⟨what, rfl⟩ := hcut
    exact ⟨what, rfl⟩
  | noPayload header e =>
    obtain ⟨what, hwhat⟩ := hcut
    exact ⟨what, (reject_fst e _).trans (congrArg _ hwhat)⟩
  | field id payload rest => cases hcut

/-- An input is read as if nothing followed it, and then what follows is read, unless the input is cut off. -/
theorem fields_append (handler : Handler σ ρ) (limits : Limits) (input more : Bytes) : ∀ p : Progress σ,
    (∃ what, (fields handler limits input p).1 = .error (.truncated what)) ∨
      fields handler limits (input ++ more) p =
        andThen (fields handler limits input) (fields handler limits more) p := by
  induction input using input_ind with
  | step input ih =>
    intro p
    rcases head_append input more with hcut | happ
    · exact Or.inl (fields_of_cut hcut p)
    · rw [fields_eq handler limits input, fields_eq handler limits (input ++ more), happ]
      cases hhead : head input with
      | nothing =>
        right
        dsimp only [Head.followedBy]
        rw [← fields_eq]
        rfl
      | noHeader e => exact Or.inr rfl
      | noPayload header e => cases e <;> exact Or.inr rfl
      | field id payload rest =>
        obtain ⟨-, hrest⟩ := ih id payload rest hhead
        dsimp only [Head.followedBy]
        -- The first field is read alike; what is cut off can only be among those after it.
        generalize andThen (announce ⟨id, payload.wireType⟩) (report handler limits id payload) = first
        rcases hfirst : first p with ⟨e | _, q⟩
        · right
          rw [andThen_of_error hfirst, andThen_of_error (andThen_of_error hfirst)]
        · rw [andThen_of_ok hfirst, andThen_of_ok hfirst, andThen_assoc, andThen_of_ok hfirst]
          exact hrest q

/-! ### Limits on the length -/

theorem enter_congr {m n : Nat} (hdepth : wide.maxDepth = narrow.maxDepth) (hnarrow : m ≤ narrow.maxLength.toNat)
    (hwide : n ≤ wide.maxLength.toNat) : (enter wide n : ParseStep σ) = enter narrow m := by
  funext p
  rw [enter, enter, if_neg (Nat.not_lt.mpr hnarrow), if_neg (Nat.not_lt.mpr hwide), hdepth]

/-- A limit on the length that an input meets is met by all that is nested in it. -/
theorem fields_congr (handler : Handler σ ρ) (hdepth : wide.maxDepth = narrow.maxDepth) (input : Bytes) :
    input.length ≤ narrow.maxLength.toNat → input.length ≤ wide.maxLength.toNat →
      fields handler wide input = fields handler narrow input := by
  induction input using input_ind with
  | step input ih =>
    intro hnarrow hwide
    rw [fields_eq handler wide, fields_eq handler narrow]
    cases hhead : head input with
    | nothing => rfl
    | noHeader e => rfl
    | noPayload header e => rfl
    | field id payload rest =>
      obtain ⟨hcontents, hrest⟩ := ih id payload rest hhead
      have hlt := length_lt_of_head_eq_field hhead
      have hbody := hcontents (by omega) (by omega)
      have hreport : report handler wide id payload = report handler narrow id payload := by
        cases payload with
        | uint64 n => rfl
        | binary bytes => rfl
        | nested body =>
          dsimp only [Payload.contents] at hbody hlt
          rw [report, report, level, level, hbody, enter_congr (m := body.length) hdepth (by omega) (by omega)]
      dsimp only
      rw [hreport, hrest (by omega) (by omega)]

theorem level_congr (handler : Handler σ ρ) (hdepth : wide.maxDepth = narrow.maxDepth) {message : Bytes}
    (hnarrow : message.length ≤ narrow.maxLength.toNat) (hwide : message.length ≤ wide.maxLength.toNat) :
    level handler wide message = level handler narrow message := by
  rw [level, level, fields_congr handler hdepth message hnarrow hwide, enter_congr hdepth hnarrow hwide]

/-! ### One message in front of another -/

/-- A level is accepted if its fields are, within the limits; it leaves the depth as it was. -/
theorem level_eq_ok_iff {message : Bytes} {p q : Progress σ} :
    level handler limits message p = (.ok (), q) ↔
      message.length ≤ limits.maxLength.toNat ∧ p.depth < limits.maxDepth.toNat ∧ q.depth = p.depth ∧
        fields handler limits message { p with depth := p.depth + 1 } = (.ok (), { q with depth := q.depth + 1 }) := by
  constructor
  · intro h
    obtain ⟨r, hr, hleave⟩ := andThen_eq_ok_iff.mp h
    obtain ⟨o, henter, hfields⟩ := andThen_eq_ok_iff.mp hr
    obtain ⟨hlen, hdepth, rfl⟩ := enter_eq_ok_iff.mp henter
    obtain ⟨fs, hfs⟩ := exists_of_fields_eq_ok message { p with depth := p.depth + 1 } r hdepth hfields
    have hr : r.depth = p.depth + 1 := hfs.depth_eq
    obtain ⟨state, depth, log⟩ := r
    subst hr
    cases hleave
    exact ⟨hlen, hdepth, rfl, hfields⟩
  · rintro ⟨hlen, hdepth, -, hfields⟩
    have henter : enter limits message.length p = (.ok (), { p with depth := p.depth + 1 }) :=
      enter_eq_ok_iff.mpr ⟨hlen, hdepth, rfl⟩
    exact andThen_eq_ok_iff.mpr ⟨_, andThen_eq_ok_iff.mpr ⟨_, henter, hfields⟩, rfl⟩

theorem level_append {first more : Bytes} {p q : Progress σ} (h : level handler narrow first p = (.ok (), q))
    (hdepth : wide.maxDepth = narrow.maxDepth) (hlen : (first ++ more).length ≤ wide.maxLength.toNat) :
    level handler wide (first ++ more) p = level handler wide more q := by
  obtain ⟨hfirst, hlt, hq, hfields⟩ := level_eq_ok_iff.mp h
  have hsum := hlen
  rw [List.length_append] at hsum
  rw [← hdepth] at hlt
  rw [← fields_congr handler hdepth first hfirst (by omega)] at hfields
  have henter : enter wide (first ++ more).length p = (.ok (), { p with depth := p.depth + 1 }) :=
    enter_eq_ok_iff.mpr ⟨hlen, hlt, rfl⟩
  have henter' : enter wide more.length q = (.ok (), { q with depth := q.depth + 1 }) :=
    enter_eq_ok_iff.mpr ⟨by omega, hq ▸ hlt, rfl⟩
  rw [level, level, andThen_assoc, andThen_assoc, andThen_of_ok henter, andThen_of_ok henter', andThen, andThen]
  rcases fields_append handler wide first more { p with depth := p.depth + 1 } with ⟨what, hcut⟩ | happ
  · rw [hfields] at hcut
    cases hcut
  · rw [happ, andThen_of_ok hfields]

theorem level_append_of_error {first more : Bytes} {e : Error} {p q : Progress σ}
    (h : level handler limits first p = (.error e, q)) (he : ∀ what, e ≠ .truncated what)
    (hlen : (first ++ more).length ≤ limits.maxLength.toNat) :
    level handler limits (first ++ more) p = (.error e, q) := by
  have hfirst : first.length ≤ limits.maxLength.toNat := by
    rw [List.length_append] at hlen
    omega
  have hsame : (enter limits (first ++ more).length : ParseStep σ) = enter limits first.length :=
    enter_congr rfl hfirst hlen
  rw [level, andThen_assoc] at h ⊢
  rw [hsame]
  rcases henter : enter limits first.length p with ⟨e' | _, r⟩
  · rw [andThen_of_error henter] at h ⊢
    exact h
  · rw [andThen_of_ok henter] at h ⊢
    rcases hfields : fields handler limits first r with ⟨e' | _, o⟩
    · rw [andThen_of_error hfields] at h
      cases h
      rcases fields_append handler limits first more r with ⟨what, hcut⟩ | happ
      · rw [hfields] at hcut
        cases hcut
        exact absurd rfl (he what)
      · rw [andThen_of_error (happ.trans (andThen_of_error hfields))]
    · rw [andThen_of_ok hfields] at h
      cases h

end FieldWire.ParseStep
