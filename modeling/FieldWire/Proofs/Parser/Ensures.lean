import FieldWire.Proofs.Parser.Step

/-! # Assertions about steps

Steps are described by what holds before and after them and where they fail (`Ensures`), and such descriptions compose
as the steps do. An assertion for the fields of each level, with one for the places in front of a level and behind it,
is kept by a whole parse if each of the steps that it is made of keeps it (`Keeps.level`). -/

namespace FieldWire.ParseStep
variable {σ ρ : Type} {handler : Handler σ ρ} {limits : Limits}

/-! ### Steps with pre- and postconditions -/

/-- Where `P` holds before the step, `Q` holds after it, or `E` holds of its error and of how far the parse has come. -/
def Ensures (P Q : Progress σ → Prop) (E : Error → Progress σ → Prop) (x : ParseStep σ) : Prop :=
  ∀ p, P p → match x p with
    | (.ok (), q) => Q q
    | (.error e, q) => E e q

theorem Ensures.andThen {P Q R : Progress σ → Prop} {E : Error → Progress σ → Prop} {x y : ParseStep σ}
    (hx : Ensures P Q E x) (hy : Ensures Q R E y) : Ensures P R E (x.andThen y) := by
  intro p hp
  have hfirst := hx p hp
  rcases hstep : x p with ⟨e | _, q⟩ <;> rw [hstep] at hfirst
  · rw [andThen_of_error hstep]
    exact hfirst
  · rw [andThen_of_ok hstep]
    exact hy q hfirst

theorem ensures_emit {P Q : Progress σ → Prop} {E : Error → Progress σ → Prop} {event : Event}
    (htaken : ∀ p s, P p → handler.receive event p.state = (.ok (), s) → Q { p with state := s })
    (hrefused : ∀ p s e, P p → handler.receive event p.state = (.error e, s) → E e { p with state := s }) :
    Ensures P Q E (emit handler event) := by
  intro p hp
  have hemit : emit handler event p =
      ((handler.receive event p.state).1, { p with state := (handler.receive event p.state).2 }) := rfl
  rw [hemit]
  rcases hreceive : handler.receive event p.state with ⟨e | _, s⟩
  · exact hrefused p s e hp hreceive
  · exact htaken p s hp hreceive

/-! ### Parses -/

/-- `I d` holds while the fields of the level `d` are read, `O d` in front of a level below it and behind that, and `E`
    where the parse fails: all steps of a parse keep to that. -/
structure Keeps (handler : Handler σ ρ) (limits : Limits) (I O : Nat → Progress σ → Prop)
    (E : Error → Progress σ → Prop) : Prop where
  announce : ∀ d header, Ensures (I d) (I d) E (announce header)
  noHeader : ∀ {d input e}, head input = .noHeader e → Ensures (I d) (I d) E (fail e)
  noPayload : ∀ {d input header e}, head input = .noPayload header e → Ensures (I d) (I d) E (reject e)
  uint64 : ∀ {d id} n, 0 < d → id ≤ FieldHeader.maxId → Ensures (I d) (I d) E (emit handler (.uint64 id n))
  binary : ∀ {d id} bytes, 0 < d → id ≤ FieldHeader.maxId → Ensures (I d) (I d) E (emit handler (.binary id bytes))
  beginNested : ∀ {d}, 0 < d → Ensures (I d) (O d) E (emit handler .beginNested)
  enter : ∀ {d length}, length ≤ limits.maxLength.toNat → Ensures (O d) (I (d + 1)) E (enter limits length)
  leave : ∀ d, Ensures (I (d + 1)) (O d) E leave
  endNested : ∀ {d id}, 0 < d → id ≤ FieldHeader.maxId → Ensures (O d) (I d) E (emit handler (.endNested id))

namespace Keeps
variable {I O : Nat → Progress σ → Prop} {E : Error → Progress σ → Prop} {d : Nat}

theorem level_of_fields (h : Keeps handler limits I O E) {message : Bytes}
    (hlen : message.length ≤ limits.maxLength.toNat)
    (hfields : Ensures (I (d + 1)) (I (d + 1)) E (fields handler limits message)) :
    Ensures (O d) (O d) E (level handler limits message) :=
  ((h.enter hlen).andThen hfields).andThen (h.leave d)

theorem report (h : Keeps handler limits I O E) {id : UInt64} {payload : Payload} (hd : 0 < d)
    (hid : id ≤ FieldHeader.maxId) (hlen : payload.contents.length ≤ limits.maxLength.toNat)
    (hfields : Ensures (I (d + 1)) (I (d + 1)) E (fields handler limits payload.contents)) :
    Ensures (I d) (I d) E (report handler limits id payload) := by
  cases payload with
  | uint64 n => exact h.uint64 n hd hid
  | binary bytes => exact h.binary bytes hd hid
  | nested body => exact ((h.beginNested hd).andThen (h.level_of_fields hlen hfields)).andThen (h.endNested hd hid)

theorem fields (h : Keeps handler limits I O E) (input : Bytes) :
    ∀ d, 0 < d → input.length ≤ limits.maxLength.toNat →
      Ensures (I d) (I d) E (ParseStep.fields handler limits input) := by
  induction input using input_ind with
  | step input ih =>
    intro d hd hlen
    rw [fields_eq]
    cases hhead : head input with
    | nothing => exact fun p hp => hp
    | noHeader e => exact h.noHeader hhead
    | noPayload header e => exact (h.announce d header).andThen (h.noPayload hhead)
    | field id payload rest =>
      obtain ⟨hcontents, hrest⟩ := ih id payload rest hhead
      have hlt := length_lt_of_head_eq_field hhead
      obtain ⟨hid, -, -⟩ := head_eq_field_iff.mp hhead
      have hreport := h.report hd hid (by omega) (hcontents (d + 1) d.succ_pos (by omega))
      exact ((h.announce d _).andThen hreport).andThen (hrest d hd (by omega))

theorem level (h : Keeps handler limits I O E) {message : Bytes} (hlen : message.length ≤ limits.maxLength.toNat) :
    Ensures (O d) (O d) E (level handler limits message) :=
  h.level_of_fields hlen (h.fields message (d + 1) d.succ_pos hlen)

end Keeps
end FieldWire.ParseStep
