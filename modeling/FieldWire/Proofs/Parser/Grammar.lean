import FieldWire.Forest.Events
import FieldWire.Forest.WireForm
import FieldWire.Proofs.Parser.Step

/-! # Parses and forests

An input that is read to its end is the wire form of a forest, and the handler took in its events and no others
(`exists_of_fields_eq_ok`). In the other direction, the wire form of a forest whose events the handler takes in is read
in full if the forest is no deeper than the limit, and refused for its depth otherwise (`reads_level`). -/

namespace FieldWire.ParseStep
variable {σ ρ : Type} {handler : Handler σ ρ} {limits : Limits}

/-! ### From inputs to forests -/

/-- The forest explains how reading an input took a parse from `p` to `q`: the input is its wire form, and the handler
    took in its events. -/
structure Explains (handler : Handler σ ρ) (limits : Limits) (fs : Forest) (input : Bytes) (p q : Progress σ) :
    Prop where
  input_eq : input = fs.wireForm
  fits : fs.All Forest.Fits
  depth_eq : q.depth = p.depth
  depth_le : p.depth + fs.depthBelow ≤ limits.maxDepth.toNat
  run : handler.run fs.events p.state = (.ok (), q.state)

theorem level_eq_ok {body : Bytes} {p q : Progress σ}
    (ih : ∀ p q : Progress σ, p.depth ≤ limits.maxDepth.toNat → fields handler limits body p = (.ok (), q) →
      ∃ fs, Explains handler limits fs body p q) (h : level handler limits body p = (.ok (), q)) :
    body.length ≤ limits.maxLength.toNat ∧ ∃ fs : Forest, body = fs.wireForm ∧ fs.All Forest.Fits ∧
      q.depth = p.depth ∧ p.depth + fs.depth ≤ limits.maxDepth.toNat ∧
      handler.run fs.events p.state = (.ok (), q.state) := by
  obtain ⟨r, hr, hleave⟩ := andThen_eq_ok_iff.mp h
  obtain ⟨o, henter, hfields⟩ := andThen_eq_ok_iff.mp hr
  obtain ⟨hlen, hdepth, rfl⟩ := enter_eq_ok_iff.mp henter
  obtain ⟨fs, hfs⟩ := ih { p with depth := p.depth + 1 } r hdepth hfields
  cases hleave
  refine ⟨hlen, fs, hfs.input_eq, hfs.fits, ?_, ?_, hfs.run⟩
  · have hr : r.depth = p.depth + 1 := hfs.depth_eq
    show r.depth - 1 = p.depth
    omega
  · have hle : p.depth + 1 + fs.depthBelow ≤ limits.maxDepth.toNat := hfs.depth_le
    rw [Forest.depth]
    omega

theorem report_eq_ok {id : UInt64} {payload : Payload} {p q : Progress σ} (hp : p.depth ≤ limits.maxDepth.toNat)
    (ih : ∀ p q : Progress σ, p.depth ≤ limits.maxDepth.toNat →
      fields handler limits payload.contents p = (.ok (), q) → ∃ fs, Explains handler limits fs payload.contents p q)
    (h : report handler limits id payload p = (.ok (), q)) :
    ∃ t : Tree, t.payload = payload ∧ t.All Forest.Fits ∧ q.depth = p.depth ∧
      p.depth + t.depth ≤ limits.maxDepth.toNat ∧ handler.run (t.events id) p.state = (.ok (), q.state) := by
  cases payload with
  | uint64 n =>
    obtain ⟨hrun, hdepth, -⟩ := emit_eq_ok_iff.mp h
    exact ⟨.uint64 n, rfl, trivial, hdepth, hp, Handler.run_singleton_eq_ok_iff.mpr hrun⟩
  | binary bytes =>
    obtain ⟨hrun, hdepth, -⟩ := emit_eq_ok_iff.mp h
    exact ⟨.binary bytes, rfl, trivial, hdepth, hp, Handler.run_singleton_eq_ok_iff.mpr hrun⟩
  | nested body =>
    obtain ⟨r, hr, hend⟩ := andThen_eq_ok_iff.mp h
    obtain ⟨o, hbegin, hlevel⟩ := andThen_eq_ok_iff.mp hr
    obtain ⟨hrun₁, hdepth₁, -⟩ := emit_eq_ok_iff.mp hbegin
    obtain ⟨-, fs, rfl, hfits, hdepth₂, hle, hrun₂⟩ := level_eq_ok ih hlevel
    obtain ⟨hrun₃, hdepth₃, -⟩ := emit_eq_ok_iff.mp hend
    exact ⟨.nested fs, rfl, hfits, by omega, hdepth₁ ▸ hle, Handler.run_cons_eq_ok_iff.mpr ⟨o.state, hrun₁,
      Handler.run_append_eq_ok_iff.mpr ⟨r.state, hrun₂, Handler.run_singleton_eq_ok_iff.mpr hrun₃⟩⟩⟩

theorem exists_of_fields_eq_ok (input : Bytes) :
    ∀ p q : Progress σ, p.depth ≤ limits.maxDepth.toNat → fields handler limits input p = (.ok (), q) →
      ∃ fs, Explains handler limits fs input p q := by
  induction input using input_ind with
  | step input ih =>
    intro p q hp h
    rw [fields_eq] at h
    cases hhead : head input with
    | nothing =>
      rw [hhead] at h
      cases h
      exact ⟨[], head_eq_nothing_iff.mp hhead, Forest.all_iff.mpr ⟨List.forall_mem_nil _, List.forall_mem_nil _⟩, rfl,
        hp, rfl⟩
    | noHeader e =>
      rw [hhead] at h
      cases h
    | noPayload header e =>
      rw [hhead] at h
      obtain ⟨r, -, hreject⟩ := andThen_eq_ok_iff.mp h
      cases e <;> cases hreject
    | field id payload rest =>
      rw [hhead] at h
      obtain ⟨r, hr, hrest⟩ := andThen_eq_ok_iff.mp h
      obtain ⟨o, hannounce, hreport⟩ := andThen_eq_ok_iff.mp hr
      obtain ⟨hstate, hsame⟩ := announce_eq_ok hannounce
      obtain ⟨hcontents, hrest'⟩ := ih id payload rest hhead
      obtain ⟨hid, -, rfl⟩ := head_eq_field_iff.mp hhead
      obtain ⟨t, rfl, hfits, hdepth, hle, hrun⟩ := report_eq_ok (hsame ▸ hp) hcontents hreport
      rw [hstate] at hrun
      rw [hsame] at hdepth hle
      obtain ⟨fs, hfs⟩ := hrest' r q (hdepth ▸ hp) hrest
      refine ⟨(id, t) :: fs, ?_, Forest.all_fits_cons_iff.mpr ⟨⟨hid, hfits⟩, hfs.fits⟩, hfs.depth_eq.trans hdepth,
        ?_, ?_⟩
      · rw [Forest.wireForm, ← hfs.input_eq]
      · have hle' := hfs.depth_le
        rw [Forest.depthBelow]
        omega
      · exact Handler.run_append_eq_ok_iff.mpr ⟨r.state, hrun, hfs.run⟩

/-! ### From forests to inputs -/

theorem length_contents_le (id : UInt64) (payload : Payload) :
    payload.contents.length ≤ (payload.encodeField id).length := by
  have hlt := payload.length_lt_encode
  rw [Payload.encodeField, List.length_append]
  omega

theorem head_wireForm_cons {id : UInt64} {t : Tree} {rest : Forest} (hid : id ≤ FieldHeader.maxId)
    (hlen : (Forest.wireForm ((id, t) :: rest)).length < 2 ^ 64) :
    head (Forest.wireForm ((id, t) :: rest)) = .field id t.payload rest.wireForm := by
  refine head_eq_field_iff.mpr ⟨hid, ?_, rfl⟩
  have hle := length_contents_le id t.payload
  rw [Forest.wireForm, List.length_append] at hlen
  omega

/-- What is said of reading fields (`F`) and of reading one field (`T`) follows from what is said of the steps and parts
    of that. -/
structure Composes (handler : Handler σ ρ) (limits : Limits) (F : Forest → ParseStep σ → Prop)
    (T : UInt64 → Tree → ParseStep σ → Prop) : Prop where
  nil : F [] done
  cons : ∀ {id t rest x y}, T id t x → F rest y →
    F ((id, t) :: rest) (announce ⟨id, t.payload.wireType⟩ |>.andThen x |>.andThen y)
  uint64 : ∀ id n, T id (.uint64 n) (emit handler (.uint64 id n))
  binary : ∀ id bytes, T id (.binary bytes) (emit handler (.binary id bytes))
  nested : ∀ {id fs}, fs.wireForm.length ≤ limits.maxLength.toNat → F fs (fields handler limits fs.wireForm) →
    T id (.nested fs) (emit handler .beginNested
      |>.andThen (level handler limits fs.wireForm)
      |>.andThen (emit handler (.endNested id)))

namespace Composes
variable {F : Forest → ParseStep σ → Prop} {T : UInt64 → Tree → ParseStep σ → Prop}

theorem fields_of_trees (h : Composes handler limits F T) {fs : Forest}
    (htrees : ∀ f ∈ fs, f.2.All Forest.Fits → f.2.payload.contents.length ≤ limits.maxLength.toNat →
      T f.1 f.2 (report handler limits f.1 f.2.payload))
    (hfits : fs.All Forest.Fits) (hlen : fs.wireForm.length ≤ limits.maxLength.toNat) :
    F fs (fields handler limits fs.wireForm) := by
  induction fs with
  | nil =>
    have hhead : head [] = .nothing := head_eq_nothing_iff.mpr rfl
    rw [Forest.wireForm, fields_eq, hhead]
    exact h.nil
  | cons f rest ih =>
    obtain ⟨id, t⟩ := f
    obtain ⟨⟨hid, ht⟩, hrest⟩ := Forest.all_fits_cons_iff.mp hfits
    have hhead := head_wireForm_cons hid (Nat.lt_of_le_of_lt hlen limits.maxLength.toNat_lt)
    rw [Forest.wireForm, List.length_append] at hlen
    have hcontents : t.payload.contents.length ≤ limits.maxLength.toNat := by
      have := length_contents_le id t.payload
      omega
    have hfirst := htrees (id, t) List.mem_cons_self ht hcontents
    have hothers := ih (fun g hg => htrees g (List.mem_cons_of_mem _ hg)) hrest (by omega)
    rw [fields_eq, hhead]
    exact h.cons hfirst hothers

theorem report (h : Composes handler limits F T) (t : Tree) :
    ∀ id, t.All Forest.Fits → t.payload.contents.length ≤ limits.maxLength.toNat →
      T id t (report handler limits id t.payload) := by
  induction t using Tree.ind with
  | uint64 n => exact fun id _ _ => h.uint64 id n
  | binary bytes => exact fun id _ _ => h.binary id bytes
  | nested fs ih =>
    intro id hfits hlen
    exact h.nested hlen (h.fields_of_trees (fun f hf => ih f hf f.1) hfits hlen)

/-- It holds of the wire form of every forest with ids that fit, if that is not too long. -/
theorem fields (h : Composes handler limits F T) {fs : Forest} (hfits : fs.All Forest.Fits)
    (hlen : fs.wireForm.length ≤ limits.maxLength.toNat) : F fs (fields handler limits fs.wireForm) :=
  h.fields_of_trees (fun f _ => h.report f.2 f.1) hfits hlen

end Composes

/-! ### Events and depths of forests -/

/-- A step reads fields with the given events, nested to the given depth below the levels that are open: it succeeds
    within the limit, and fails for the depth beyond it. The handler is one that takes in the events. -/
structure Reads (handler : Handler σ ρ) (limits : Limits) (events : List Event) (depth : Nat) (x : ParseStep σ) :
    Prop where
  within : ∀ {p : Progress σ} {t : σ}, handler.run events p.state = (.ok (), t) →
    p.depth + depth ≤ limits.maxDepth.toNat → ∃ log, x p = (.ok (), ⟨t, p.depth, log⟩)
  beyond : ∀ {p : Progress σ} {t : σ}, handler.run events p.state = (.ok (), t) →
    p.depth ≤ limits.maxDepth.toNat → limits.maxDepth.toNat < p.depth + depth →
    ∃ q, x p = (.error (.depthExceeded limits.maxDepth), q)

namespace Reads
variable {es fs : List Event} {a b : Nat} {x y : ParseStep σ}

theorem done : Reads handler limits [] 0 (done : ParseStep σ) where
  within h _ := by
    cases h
    exact ⟨_, rfl⟩
  beyond _ hp hlt := absurd hlt (Nat.not_lt.mpr hp)

theorem announce (header : FieldHeader) : Reads handler limits [] 0 (announce header : ParseStep σ) where
  within h _ := by
    cases h
    exact ⟨_, rfl⟩
  beyond _ hp hlt := absurd hlt (Nat.not_lt.mpr hp)

theorem emit (event : Event) : Reads handler limits [event] 0 (emit handler event) where
  within h _ := ⟨_, emit_eq_ok_iff.mpr ⟨Handler.run_singleton_eq_ok_iff.mp h, rfl, rfl⟩⟩
  beyond _ hp hlt := absurd hlt (Nat.not_lt.mpr hp)

/-- Two steps in a row read the events of both, to the greater of their depths. -/
theorem andThen (hx : Reads handler limits es a x) (hy : Reads handler limits fs b y) :
    Reads handler limits (es ++ fs) (max a b) (x.andThen y) where
  within {p t} h hle := by
    obtain ⟨u, hu, ht⟩ := Handler.run_append_eq_ok_iff.mp h
    obtain ⟨log, hr⟩ := hx.within hu (by omega)
    obtain ⟨log', hq⟩ := hy.within (p := ⟨u, p.depth, log⟩) ht (by dsimp only; omega)
    exact ⟨log', andThen_eq_ok_iff.mpr ⟨_, hr, hq⟩⟩
  beyond {p t} h hp hlt := by
    obtain ⟨u, hu, ht⟩ := Handler.run_append_eq_ok_iff.mp h
    -- The first step fails, or it succeeds and the second one fails.
    by_cases ha : limits.maxDepth.toNat < p.depth + a
    · obtain ⟨q, hq⟩ := hx.beyond hu hp ha
      exact ⟨q, andThen_of_error hq⟩
    · obtain ⟨log, hr⟩ := hx.within hu (Nat.le_of_not_lt ha)
      obtain ⟨q, hq⟩ := hy.beyond (p := ⟨u, p.depth, log⟩) ht hp (by dsimp only; omega)
      exact ⟨q, (andThen_of_ok hr).trans hq⟩

/-- A level reads what its fields do, one level deeper. -/
theorem level {body : Bytes} (hbody : Reads handler limits es a (fields handler limits body))
    (hlen : body.length ≤ limits.maxLength.toNat) : Reads handler limits es (1 + a) (level handler limits body) where
  within {p t} h hle := by
    obtain ⟨log, hfields⟩ := hbody.within (p := { p with depth := p.depth + 1 }) h (by dsimp only; omega)
    refine ⟨log, andThen_eq_ok_iff.mpr ⟨_, andThen_eq_ok_iff.mpr ⟨_, ?_, hfields⟩, rfl⟩⟩
    exact enter_eq_ok_iff.mpr ⟨hlen, by omega, rfl⟩
  beyond {p t} h hp hlt := by
    by_cases hdepth : p.depth < limits.maxDepth.toNat
    · obtain ⟨q, hq⟩ := hbody.beyond (p := { p with depth := p.depth + 1 }) h hdepth (by dsimp only; omega)
      have henter := enter_eq_ok_iff.mpr ⟨hlen, hdepth, rfl⟩
      exact ⟨q, andThen_of_error ((andThen_of_ok henter).trans hq)⟩
    · obtain ⟨q, hq⟩ := enter_of_depth hlen (Nat.le_of_not_lt hdepth)
      exact ⟨q, andThen_of_error (andThen_of_error hq)⟩

end Reads

theorem composes_reads : Composes handler limits (fun fs => Reads handler limits fs.events fs.depthBelow)
    fun id t => Reads handler limits (t.events id) t.depth where
  nil := .done
  cons {id t rest x y} hfirst hothers := by
    have hall := ((Reads.announce ⟨id, t.payload.wireType⟩).andThen hfirst).andThen hothers
    rw [List.nil_append, Nat.zero_max] at hall
    exact hall
  uint64 id n := .emit (.uint64 id n)
  binary id bytes := .emit (.binary id bytes)
  nested {id fs} hlen hfields := by
    have hall := ((Reads.emit .beginNested).andThen (hfields.level hlen)).andThen (.emit (.endNested id))
    rw [Nat.zero_max, Nat.max_zero] at hall
    exact hall

/-- The wire form of a forest is read as a level, if it is not too long. -/
theorem reads_level {fs : Forest} (hfits : fs.All Forest.Fits) (hlen : fs.wireForm.length ≤ limits.maxLength.toNat) :
    Reads handler limits fs.events fs.depth (level handler limits fs.wireForm) :=
  (composes_reads.fields hfits hlen).level hlen

end FieldWire.ParseStep
