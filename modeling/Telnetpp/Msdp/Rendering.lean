import Telnetpp.Msdp.Reading

/-!
# Decoding the standard rendering

The rendering puts the entries of a table between one pair of brackets. The
decoder takes the TABLE_CLOSE after a string for the end of the string, and
so leaves open a table that ends in one: what follows is read as part of it.
-/

namespace Telnetpp.Msdp

mutual

def render : Variable → Bytes
  | ⟨n, value⟩ => header n ++ value.render

def Value.render : Value Variable → Bytes
  | .string s => s
  | .array items => [arrayOpen] ++ items.flatMap (fun s => val :: s) ++ [arrayClose]
  | .table es => [tableOpen] ++ renderAll es ++ [tableClose]

def renderAll : List Variable → Bytes
  | [] => []
  | v :: vs => render v ++ renderAll vs

end

/-- No table that ends in a string is followed by another variable. -/
def Separable : List Variable → Prop
  | [] => True
  | ⟨_, .string _⟩ :: vs => Separable vs
  | ⟨_, .array _⟩ :: vs => Separable vs
  | ⟨_, .table es⟩ :: vs => Separable es ∧ (vs = [] ∨ endsInString es = false) ∧ Separable vs

def Variable.leftOpen : Variable → Bool
  | ⟨_, .table es⟩ => endsInString es
  | _ => false

theorem separable_cons (v : Variable) (vs : List Variable) :
    Separable (v :: vs) ↔
      Separable [v] ∧ (vs = [] ∨ v.leftOpen = false) ∧ Separable vs := by
  rcases v with ⟨n, s | items | es⟩ <;> simp [Separable, Variable.leftOpen]

theorem separable_table (n : Bytes) (es : List Variable) :
    Separable [⟨n, .table es⟩] ↔ Separable es := by simp [Separable]

namespace Cursor

/-- What the cursor makes of the rendering of one variable: it is read in its
place, and leaves one table more open if it is a table that ends in a string. -/
structure ReadsVariable (c : Cursor) (v : Variable) (c' : Cursor) : Prop where
  reads : c.Reads (render v) c'
  between : c'.Between
  named : c.Named → c'.Named
  depth : c.parents.length ≤ c'.parents.length
  load : c.load + weight c.parents.length [v] ≤ c'.load
  strict : ¬ Separable [v] → c.load + weight c.parents.length [v] < c'.load
  leftOpen : v.leftOpen = true → c.parents.length < c'.parents.length
  pending : endsInString [v] = true → v.leftOpen = false → c'.focus ≠ .idle
  contents : Separable [v] → c'.contents = (c.settle.extend [v]).contents
  closed : Separable [v] → v.leftOpen = false → c'.settle = c.settle.extend [v]
  idle : Separable [v] → endsInString [v] = false → c' = c.settle.extend [v]

/-- The same for a list of variables: every one is read at least as deep as
it should be, and in its place when the list is separable. -/
structure ReadsRendering (c : Cursor) (vs : List Variable) (c' : Cursor) : Prop where
  reads : c.Reads (renderAll vs) c'
  between : c'.Between
  named : c.Named → c'.Named
  depth : c.parents.length ≤ c'.parents.length
  load : c.load + weight c.parents.length vs ≤ c'.load
  strict : ¬ Separable vs → c.load + weight c.parents.length vs < c'.load
  ends : endsInString vs = true → c'.focus ≠ .idle ∨ c.parents.length < c'.parents.length
  contents : Separable vs → c'.contents = (c.settle.extend vs).contents
  finished : Separable vs → endsInString vs = false →
    (vs = [] ∧ c' = c) ∨ c' = c.settle.extend vs

theorem readsVariable_string {c : Cursor} (hc : c.Between) {n s : Bytes}
    (hn : n ≠ [] ∧ Plain n) (hs : Plain s) : ∃ c', ReadsVariable c ⟨n, .string s⟩ c' := by
  obtain ⟨fs, done, hsettle, hlength, hload, hnamed⟩ := settle_spec hc
  have hreads := (reads_header hc hn.2).trans (reads_string hs n [] c.settle.parents c.settle.done)
  rw [hsettle] at hreads
  have hvalue := load_value n s fs done
  refine ⟨⟨.value n s, fs, done⟩, hreads, trivial, ?_, Nat.le_of_eq hlength.symm, ?_,
    ?_, ?_, ?_, ?_, ?_, ?_⟩
  · intro h
    exact ⟨(hnamed h).parents, by simpa [Focus.current?] using hn.1⟩
  · simp only [weight]
    omega
  · simp [Separable]
  · simp [Variable.leftOpen]
  · simp
  · intro _
    rw [hsettle, ← leave_eq_extend]
    exact (contents_settle ⟨.value n s, fs, done⟩).symm
  · intro _ _
    rw [hsettle]
    rfl
  · simp [endsInString]

theorem readsVariable_array {c : Cursor} (hc : c.Between) {n : Bytes} {items : List Bytes}
    (hn : n ≠ [] ∧ Plain n) (hitems : ∀ s ∈ items, Plain s) :
    ∃ c', ReadsVariable c ⟨n, .array items⟩ c' := by
  obtain ⟨fs, done, hsettle, hlength, hload, hnamed⟩ := settle_spec hc
  have hreads := (reads_header hc hn.2).trans
    (reads_array hitems n [] c.settle.parents c.settle.done)
  rw [hsettle] at hreads
  have hextend := load_extend ⟨.idle, fs, done⟩ [⟨n, .array items⟩]
  refine ⟨extend ⟨.idle, fs, done⟩ [⟨n, .array items⟩], hreads, ?_, fun h => (hnamed h).extend _,
    ?_, ?_, ?_, ?_, ?_, ?_, ?_, ?_⟩
  · simp [Between]
  · rw [← leave_eq_extend, leave_parents_length]
    exact Nat.le_of_eq hlength.symm
  · simp only [weight] at hextend ⊢
    omega
  · simp [Separable]
  · simp [Variable.leftOpen]
  · simp [endsInString]
  · intro _
    rw [hsettle]
  · intro _ _
    rw [hsettle, settle, extend_focus]
  · intro _ _
    rw [hsettle]

theorem readsVariable_table {c c₂ : Cursor} (hc : c.Between) {n : Bytes} {es : List Variable}
    (hn : n ≠ [] ∧ Plain n) {fs : List Frame} {done : List Variable}
    (hsettle : c.settle = ⟨.idle, fs, done⟩) (hlength : fs.length = c.parents.length)
    (hload : load ⟨.idle, fs, done⟩ = c.load) (hnamed : c.Named → Named ⟨.idle, fs, done⟩)
    (h : ReadsRendering ⟨.idle, ⟨n, []⟩ :: fs, done⟩ es c₂) :
    ∃ c', ReadsVariable c ⟨n, .table es⟩ c' := by
  have hopen : Reads ⟨.value n [], fs, done⟩ [tableOpen] ⟨.idle, ⟨n, []⟩ :: fs, done⟩ := rfl
  have hdepth : fs.length + 1 ≤ c₂.parents.length := h.depth
  have hparents : c₂.parents ≠ [] := List.ne_nil_of_length_pos (by omega)
  obtain ⟨c', hclose, hidle, hcontents, hnamed', hpop, hstring⟩ :=
    reads_tableClose h.between hparents
  have hreads := (reads_header hc hn.2)
  rw [hsettle] at hreads
  have hload' : c'.load = c₂.load := by rw [load, hcontents, load]
  have htable := load_table n fs done
  have hweight := h.load
  have hplace : (extend ⟨.idle, ⟨n, []⟩ :: fs, done⟩ es).contents =
      (c.settle.extend [⟨n, .table es⟩]).contents := by
    rw [contents_extend, hsettle, contents_extend]
    simp [inside]
  have hclosed : Separable [⟨n, .table es⟩] → endsInString es = false →
      c' = c.settle.extend [⟨n, .table es⟩] := by
    intro hsep hends
    have hc₂ : c₂ = extend ⟨.idle, ⟨n, []⟩ :: fs, done⟩ es := by
      rcases h.finished ((separable_table _ _).mp hsep) hends with ⟨rfl, hc₂⟩ | hc₂
      · rw [hc₂, extend_nil rfl]
      · exact hc₂
    have hfocus : c₂.focus = .idle := by rw [hc₂, extend_focus]
    rw [(hpop hfocus).1, hc₂, hsettle]
    rfl
  refine ⟨c', hreads.trans ((hopen.trans h.reads).trans hclose), by simp [Between, hidle],
    ?_, ?_, ?_, ?_, ?_, ?_, ?_, ?_, ?_⟩
  · intro hnames
    refine hnamed' (h.named ⟨?_, by simp [Focus.current?]⟩)
    intro f hf
    rcases List.mem_cons.mp hf with rfl | hf
    · exact hn.1
    · exact (hnamed hnames).parents f hf
  · by_cases hfocus : c₂.focus = .idle
    · have := (hpop hfocus).2
      omega
    · have := hstring hfocus
      omega
  · simp only [weight, List.length_cons, hlength] at hweight htable ⊢
    omega
  · intro hsep
    have hstrict := h.strict fun hes => hsep ((separable_table _ _).mpr hes)
    simp only [weight, List.length_cons, hlength] at hstrict htable ⊢
    omega
  · intro hends
    by_cases hfocus : c₂.focus = .idle
    · have hdeep : fs.length + 1 < c₂.parents.length :=
        (h.ends hends).resolve_left fun hne => hne hfocus
      have := (hpop hfocus).2
      omega
    · have := hstring hfocus
      omega
  · intro hends hopen
    have hends' : endsInString es = true := by simpa only [endsInString] using hends
    exact absurd (hends'.symm.trans hopen) (by decide)
  · intro hsep
    rw [hcontents, h.contents ((separable_table _ _).mp hsep), ← hplace]
    rfl
  · intro hsep hends
    have heq := hclosed hsep hends
    rw [heq, settle, extend_focus]
  · intro hsep hends
    exact hclosed hsep (by simpa only [endsInString] using hends)

theorem readsRendering_nil {c : Cursor} (h : c.Between) : ReadsRendering c [] c where
  reads := rfl
  between := h
  named := id
  depth := Nat.le_refl _
  load := by simp [weight]
  strict := by simp [Separable]
  ends := by simp [endsInString]
  contents := fun _ => by rw [extend_nil (settle_focus h), contents_settle]
  finished := fun _ _ => Or.inl ⟨rfl, rfl⟩

theorem readsRendering_cons {c c₁ c' : Cursor} {v : Variable} {vs : List Variable}
    (hv : ReadsVariable c v c₁) (hvs : ReadsRendering c₁ vs c') :
    ReadsRendering c (v :: vs) c' := by
  have hmono := weight_mono hv.depth vs
  have hv_load := hv.load
  have hvs_load := hvs.load
  have hnil (h : vs = []) : c' = c₁ := by
    have hreads := hvs.reads
    rw [h] at hreads
    exact reads_nil.mp hreads
  refine ⟨hv.reads.trans hvs.reads, hvs.between, fun h => hvs.named (hv.named h),
    Nat.le_trans hv.depth hvs.depth, ?_, ?_, ?_, ?_, ?_⟩
  · rw [weight_cons]
    omega
  · intro hsep
    rw [weight_cons]
    by_cases hv_sep : Separable [v]
    · by_cases hvs_sep : Separable vs
      · have hopen : vs ≠ [] ∧ v.leftOpen = true := by
          by_contra h
          refine hsep ((separable_cons v vs).mpr ⟨hv_sep, ?_, hvs_sep⟩)
          rw [← Bool.not_eq_true]
          tauto
        have := weight_strictMono (hv.leftOpen hopen.2) hopen.1
        omega
      · have := hvs.strict hvs_sep
        omega
    · have := hv.strict hv_sep
      omega
  · intro hends
    by_cases h : vs = []
    · rw [h] at hends
      rw [hnil h]
      by_cases hopen : v.leftOpen = true
      · exact Or.inr (hv.leftOpen hopen)
      · exact Or.inl (hv.pending hends (by simpa using hopen))
    · rw [endsInString_cons h] at hends
      rcases hvs.ends hends with hfocus | hdeep
      · exact Or.inl hfocus
      · exact Or.inr (Nat.lt_of_le_of_lt hv.depth hdeep)
  · intro hsep
    obtain ⟨hv_sep, hlast | hopen, hvs_sep⟩ := (separable_cons v vs).mp hsep
    · rw [hnil hlast, hlast]
      exact hv.contents hv_sep
    · rw [hvs.contents hvs_sep, hv.closed hv_sep hopen, extend_extend]
      rfl
  · intro hsep hends
    obtain ⟨hv_sep, hnext, hvs_sep⟩ := (separable_cons v vs).mp hsep
    right
    by_cases h : vs = []
    · rw [h] at hends
      rw [hnil h, h]
      exact hv.idle hv_sep hends
    · rw [endsInString_cons h] at hends
      rcases hvs.finished hvs_sep hends with ⟨hvs_nil, -⟩ | heq
      · exact absurd hvs_nil h
      · rw [heq, hv.closed hv_sep (hnext.resolve_left h), extend_extend]
        rfl

theorem exists_readsRendering {vs : List Variable} (h : Clean vs) {c : Cursor}
    (hc : c.Between) : ∃ c', ReadsRendering c vs c' := by
  induction vs using forest_induction generalizing c with
  | nil => exact ⟨c, readsRendering_nil hc⟩
  | string n s vs ih =>
      rw [Clean] at h
      obtain ⟨hn, hs, hvs⟩ := h
      obtain ⟨c₁, hv⟩ := readsVariable_string hc hn hs
      obtain ⟨c', hvs'⟩ := ih hvs hv.between
      exact ⟨c', readsRendering_cons hv hvs'⟩
  | array n items vs ih =>
      rw [Clean] at h
      obtain ⟨hn, hitems, hvs⟩ := h
      obtain ⟨c₁, hv⟩ := readsVariable_array hc hn hitems
      obtain ⟨c', hvs'⟩ := ih hvs hv.between
      exact ⟨c', readsRendering_cons hv hvs'⟩
  | table n es vs ihes ih =>
      rw [Clean] at h
      obtain ⟨hn, hes, hvs⟩ := h
      obtain ⟨fs, done, hsettle, hlength, hload, hnamed⟩ := settle_spec hc
      obtain ⟨c₂, hes'⟩ := ihes hes (c := ⟨.idle, ⟨n, []⟩ :: fs, done⟩) trivial
      obtain ⟨c₁, hv⟩ := readsVariable_table hc hn hsettle hlength hload hnamed hes'
      obtain ⟨c', hvs'⟩ := ih hvs hv.between
      exact ⟨c', readsRendering_cons hv hvs'⟩

end Cursor

/-- Decoding the rendering of a list of variables reports these variables
exactly when the list is separable. -/
theorem decode_renderAll_iff (vs : List Variable) (h : Clean vs) :
    decode (renderAll vs) = .ok vs ↔ Separable vs := by
  obtain ⟨c', hread⟩ := Cursor.exists_readsRendering h (c := {}) trivial
  have hnamed : c'.Named := hread.named ⟨by simp, by simp [Focus.current?]⟩
  rw [Cursor.decode_of_reads hread.reads hnamed]
  constructor
  · intro heq
    by_contra hsep
    have hstrict := hread.strict hsep
    rw [Cursor.load, Cursor.load, Except.ok.inj heq] at hstrict
    simp [Cursor.contents, Cursor.inside, Focus.current?, weight] at hstrict
  · intro hsep
    rw [hread.contents hsep]
    simp [Cursor.extend, Cursor.settle, Cursor.contents, Cursor.inside, Focus.current?]

theorem decode_string_then_table :
    decode (renderAll [⟨[98], .string [121]⟩, ⟨[116], .table [⟨[97], .string [120]⟩]⟩]) =
      .ok [⟨[98], .string [121]⟩, ⟨[116], .table [⟨[97], .string [120]⟩]⟩] :=
  (decode_renderAll_iff _ (by simp [Clean, Plain, isControl])).mpr (by simp [Separable])

/-- The other way round, the string is read as an entry of the table. -/
theorem decode_table_then_string :
    Clean [⟨[116], .table [⟨[97], .string [120]⟩]⟩, ⟨[98], .string [121]⟩] ∧
      decode (renderAll [⟨[116], .table [⟨[97], .string [120]⟩]⟩, ⟨[98], .string [121]⟩]) =
        .ok [⟨[116], .table [⟨[97], .string [120]⟩, ⟨[98], .string [121]⟩]⟩] ∧
      decode (renderAll [⟨[116], .table [⟨[97], .string [120]⟩]⟩, ⟨[98], .string [121]⟩]) ≠
        .ok [⟨[116], .table [⟨[97], .string [120]⟩]⟩, ⟨[98], .string [121]⟩] := by
  have hread : decode (renderAll [⟨[116], .table [⟨[97], .string [120]⟩]⟩, ⟨[98], .string [121]⟩]) =
      .ok [⟨[116], .table [⟨[97], .string [120]⟩, ⟨[98], .string [121]⟩]⟩] := rfl
  refine ⟨by simp [Clean, Plain, isControl], hread, ?_⟩
  rw [hread]
  simp

end Telnetpp.Msdp
