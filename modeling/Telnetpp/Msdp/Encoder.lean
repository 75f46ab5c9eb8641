import Telnetpp.Msdp.Reading

/-!
# Decoding what the encoder wrote

The encoder puts every entry of a table between brackets of its own. The
decoder opens the table at the first TABLE_OPEN and ignores the others, and
it finishes the table at the first TABLE_CLOSE that does not finish a string.
-/

namespace Telnetpp.Msdp

mutual

/-- `encode_variable`: `storage` with the encoding appended. -/
def encodeVariable : Variable → Bytes → Bytes
  | ⟨n, value⟩, storage => value.encode (storage ++ [var] ++ n ++ [val])

def Value.encode : Value Variable → Bytes → Bytes
  | .string s, storage => storage ++ s
  | .array items, storage =>
      items.foldl (fun storage s => storage ++ [val] ++ s) (storage ++ [arrayOpen]) ++ [arrayClose]
  | .table es, storage => encodeEntries es storage

def encodeEntries : List Variable → Bytes → Bytes
  | [], storage => storage
  | v :: vs, storage =>
      encodeEntries vs (encodeVariable v (storage ++ [tableOpen]) ++ [tableClose])

end

def encode (v : Variable) : Bytes := encodeVariable v []

/-- The bytes appended for the entries of a table. -/
def entries (vs : List Variable) : Bytes := encodeEntries vs []

theorem foldl_items (items : List Bytes) (storage : Bytes) :
    items.foldl (fun storage s => storage ++ [val] ++ s) storage =
      storage ++ items.flatMap fun s => val :: s := by
  induction items generalizing storage with
  | nil => simp
  | cons s items ih =>
      rw [List.foldl_cons, ih, List.flatMap_cons]
      simp only [List.append_assoc, List.cons_append, List.nil_append]

theorem encodeEntries_eq (vs : List Variable) (storage : Bytes) :
    encodeEntries vs storage = storage ++ entries vs := by
  induction vs using forest_induction generalizing storage with
  | nil => simp [entries, encodeEntries]
  | string n s vs ih =>
      simp only [entries, encodeEntries, encodeVariable, Value.encode]
      rw [ih, ih ([] ++ _ ++ _ ++ _ ++ _ ++ _ ++ _)]
      simp
  | array n items vs ih =>
      simp only [entries, encodeEntries, encodeVariable, Value.encode, foldl_items]
      rw [ih, ih ([] ++ _ ++ _ ++ _ ++ _ ++ _ ++ _ ++ _ ++ _)]
      simp
  | table n es vs ihes ih =>
      simp only [entries, encodeEntries, encodeVariable, Value.encode]
      rw [ih, ih (encodeEntries es _ ++ _), ihes, ihes ([] ++ _ ++ _ ++ _ ++ _)]
      simp

@[simp] theorem entries_nil : entries [] = [] := rfl

theorem encodeVariable_eq (v : Variable) (storage : Bytes) :
    encodeVariable v storage = storage ++ encode v := by
  rcases v with ⟨n, s | items | es⟩ <;>
    simp [encode, encodeVariable, Value.encode, encodeEntries_eq]

theorem entries_cons (v : Variable) (vs : List Variable) :
    entries (v :: vs) = [tableOpen] ++ encode v ++ [tableClose] ++ entries vs := by
  rw [entries, encodeEntries, encodeEntries_eq, encodeVariable_eq]
  simp

theorem encode_string (n s : Bytes) : encode ⟨n, .string s⟩ = header n ++ s := by
  simp [encode, encodeVariable, Value.encode, header]

theorem encode_array (n : Bytes) (items : List Bytes) : encode ⟨n, .array items⟩ =
    header n ++ ([arrayOpen] ++ items.flatMap (fun s => val :: s) ++ [arrayClose]) := by
  rw [encode, encodeVariable, Value.encode, foldl_items]
  simp [header]

theorem encode_table (n : Bytes) (es : List Variable) :
    encode ⟨n, .table es⟩ = header n ++ entries es := by
  simp [encode, encodeVariable, Value.encode, encodeEntries_eq, header]

/-- No table is empty, and every entry before the last of a table is a string
or a table that ends in one. -/
def Bracketed : List Variable → Prop
  | [] => True
  | ⟨_, .string _⟩ :: vs => Bracketed vs
  | ⟨_, .array _⟩ :: vs => vs = []
  | ⟨_, .table es⟩ :: vs =>
      (es ≠ [] ∧ Bracketed es) ∧ (vs = [] ∨ endsInString es = true) ∧ Bracketed vs

theorem bracketed_cons (v : Variable) (vs : List Variable) :
    Bracketed (v :: vs) ↔
      Bracketed [v] ∧ (vs = [] ∨ endsInString [v] = true) ∧ Bracketed vs := by
  rcases v with ⟨n, s | items | es⟩
  · simp [Bracketed, endsInString]
  · simp only [Bracketed, endsInString, true_and, Bool.false_eq_true, or_false]
    constructor
    · rintro rfl
      exact ⟨rfl, by simp [Bracketed]⟩
    · intro h
      exact h.1
  · simp [Bracketed, endsInString]

namespace Cursor

/-! ## Entries that are read back -/

theorem reads_entries_open {n : Bytes} {fs : List Frame} {done : List Variable}
    {es : List Variable} (hes : es ≠ []) {c' : Cursor} :
    Reads ⟨.value n [], fs, done⟩ (entries es) c' ↔
      Reads ⟨.idle, ⟨n, []⟩ :: fs, done⟩ (entries es) c' := by
  have hvalue : Reads ⟨.value n [], fs, done⟩ [tableOpen] ⟨.idle, ⟨n, []⟩ :: fs, done⟩ := rfl
  have hidle : Reads ⟨.idle, ⟨n, []⟩ :: fs, done⟩ [tableOpen] ⟨.idle, ⟨n, []⟩ :: fs, done⟩ := rfl
  obtain ⟨v, vs, rfl⟩ := List.exists_cons_of_ne_nil hes
  rw [entries_cons, List.append_assoc, List.append_assoc, hvalue.append_iff, hidle.append_iff]

/-- The cursor after the entries: in the table still, or out of it when the
last entry does not end in a string. -/
def afterEntries (c : Cursor) (vs : List Variable) : Cursor :=
  if vs = [] ∨ endsInString vs = true then c.extend vs else (c.extend vs).pop

theorem reads_header_idle {c : Cursor} (hc : c.focus = .idle) {n : Bytes} (hn : Plain n) :
    c.Reads ([tableOpen] ++ header n) { c with focus := .value n [] } := by
  have hheader := reads_header (c := c) (by simp [Between, hc]) hn
  rw [show c.settle = c by simp [settle, hc]] at hheader
  exact (reads_tableOpen_idle hc).trans hheader

theorem extend_parents_ne_nil {c : Cursor} (h : c.parents ≠ []) (vs : List Variable) :
    (c.extend vs).parents ≠ [] := by
  rcases c with ⟨focus, _ | ⟨f, fs⟩, done⟩
  · exact absurd rfl h
  · simp [extend]

theorem reads_entries_cons {c : Cursor} (hparents : c.parents ≠ []) {v : Variable}
    {vs : List Variable} (hb : Bracketed (v :: vs))
    (hv : c.Reads ([tableOpen] ++ encode v ++ [tableClose]) (c.afterEntries [v]))
    (hvs : (c.extend [v]).parents ≠ [] →
      (c.extend [v]).Reads (entries vs) ((c.extend [v]).afterEntries vs)) :
    c.Reads (entries (v :: vs)) (c.afterEntries (v :: vs)) := by
  obtain ⟨-, hnext, -⟩ := (bracketed_cons v vs).mp hb
  rw [entries_cons]
  by_cases h : vs = []
  · rw [h, entries_nil, List.append_nil]
    exact hv
  · have hends := hnext.resolve_left h
    rw [afterEntries, if_pos (Or.inr hends)] at hv
    have hrest := hvs (extend_parents_ne_nil hparents [v])
    have hafter : (c.extend [v]).afterEntries vs = c.afterEntries (v :: vs) := by
      simp only [afterEntries, extend_extend, endsInString_cons h, h, false_or, reduceCtorEq,
        List.singleton_append]
    rw [hafter] at hrest
    exact hv.trans hrest

theorem reads_entries {vs : List Variable} (hclean : Clean vs) (hb : Bracketed vs) {c : Cursor}
    (hc : c.focus = .idle) (hparents : c.parents ≠ []) :
    c.Reads (entries vs) (c.afterEntries vs) := by
  induction vs using forest_induction generalizing c with
  | nil =>
      rw [entries_nil, afterEntries, if_pos (Or.inl rfl), extend_nil hc]
      exact reads_nil.mpr rfl
  | string n s vs ih =>
      rw [Clean] at hclean
      obtain ⟨hn, hs, hvs⟩ := hclean
      refine reads_entries_cons hparents hb ?_
        (ih hvs ((bracketed_cons _ _).mp hb).2.2 (extend_focus _ _))
      have hread := ((reads_header_idle hc hn.2).trans
        (reads_string hs n [] c.parents c.done)).trans (reads_tableClose_value n s _ _)
      rw [encode_string, ← List.append_assoc, afterEntries,
        if_pos (Or.inr (by simp only [endsInString]))]
      exact hread
  | array n items vs ih =>
      rw [Clean] at hclean
      obtain ⟨hn, hitems, hvs⟩ := hclean
      refine reads_entries_cons hparents hb ?_
        (ih hvs ((bracketed_cons _ _).mp hb).2.2 (extend_focus _ _))
      have harray := (reads_header_idle hc hn.2).trans
        (reads_array hitems n [] c.parents c.done)
      have hclose : (c.extend [⟨n, .array items⟩]).Reads [tableClose]
          (c.extend [⟨n, .array items⟩]).pop :=
        (reads_tableClose_idle (extend_focus _ _)).mpr
          ⟨extend_parents_ne_nil hparents _, rfl⟩
      rw [encode_array, ← List.append_assoc]
      simpa [afterEntries, endsInString] using harray.trans hclose
  | table n es vs ihes ih =>
      rw [Clean] at hclean
      obtain ⟨hn, hes, hvs⟩ := hclean
      obtain ⟨hbes, -, hbvs⟩ := (bracketed_cons _ _).mp hb
      refine reads_entries_cons hparents hb ?_ (ih hvs hbvs (extend_focus _ _))
      have hbes' : es ≠ [] ∧ Bracketed es := by simpa [Bracketed] using hbes
      have hopen := (reads_entries_open hbes'.1).mpr (ihes hes hbes'.2
        (c := ⟨.idle, ⟨n, []⟩ :: c.parents, c.done⟩) rfl (List.cons_ne_nil _ _))
      have hread := (reads_header_idle hc hn.2).trans hopen
      rw [encode_table, ← List.append_assoc]
      apply hread.trans
      have htable : extend ⟨.idle, ⟨n, []⟩ :: c.parents, c.done⟩ es =
          ⟨.idle, ⟨n, es⟩ :: c.parents, c.done⟩ := rfl
      have hpop : pop ⟨.idle, ⟨n, es⟩ :: c.parents, c.done⟩ = c.extend [⟨n, .table es⟩] := rfl
      have hsingle : endsInString [⟨n, .table es⟩] = endsInString es := by simp only [endsInString]
      simp only [afterEntries, htable, hbes'.1, hsingle, false_or, reduceCtorEq]
      split
      · rw [hpop.symm]
        exact (reads_tableClose_idle rfl).mpr ⟨List.cons_ne_nil _ _, rfl⟩
      · rw [hpop]
        exact (reads_tableClose_idle (extend_focus _ _)).mpr
          ⟨extend_parents_ne_nil hparents _, rfl⟩

/-! ## Entries that are misread -/

/-- Whatever is read of entries that belong at depth `d` is no deeper than
that, and something is less deep if they cannot be told apart. -/
structure EntriesBound (c : Cursor) (d : ℕ) (vs : List Variable) (c' : Cursor) : Prop where
  idle : c'.focus = .idle
  named : c.Named → c'.Named
  depth : c'.parents.length ≤ d
  load : c'.load ≤ c.load + weight d vs
  strict : ¬ Bracketed vs → c'.load < c.load + weight d vs
  closed : vs ≠ [] → endsInString vs = false →
    c'.parents.length < d ∨ c'.load < c.load + weight d vs

theorem entriesBound_nil {c : Cursor} (hc : c.focus = .idle) {d : ℕ}
    (hd : c.parents.length ≤ d) : EntriesBound c d [] c where
  idle := hc
  named := id
  depth := hd
  load := by simp [weight]
  strict := by simp [Bracketed]
  closed := fun h => absurd rfl h

theorem entriesBound_cons {c c₁ c' : Cursor} {d : ℕ} {v : Variable} {vs : List Variable}
    (hv : EntriesBound c d [v] c₁)
    (hvs : ∀ d', c₁.parents.length ≤ d' → EntriesBound c₁ d' vs c') :
    EntriesBound c d (v :: vs) c' := by
  have hrest := hvs d hv.depth
  have hv_load := hv.load
  have hrest_load := hrest.load
  have hweight := weight_cons d v vs
  refine ⟨hrest.idle, fun h => hrest.named (hv.named h), hrest.depth, by omega, ?_, ?_⟩
  · intro hb
    rw [bracketed_cons, not_and_or, not_and_or, not_or] at hb
    rcases hb with hv_b | ⟨hne, hends⟩ | hvs_b
    · have := hv.strict hv_b
      omega
    · -- the table was finished too early, and the next entry is less deep
      rcases hv.closed (List.cons_ne_nil _ _) (by simpa using hends) with hdepth | hload
      · have hearly := (hvs (d - 1) (by omega)).load
        have := weight_strictMono (show d - 1 < d by omega) hne
        omega
      · omega
    · have := hrest.strict hvs_b
      omega
  · intro _ hends
    by_cases h : vs = []
    · subst h
      have hload : weight d ([] : List Variable) = 0 := by simp only [weight]
      rcases hv.closed (List.cons_ne_nil _ _) hends with hdepth | hstrict
      · have hshallow := (hvs (d - 1) (by omega)).depth
        exact Or.inl (by omega)
      · exact Or.inr (by omega)
    · rw [endsInString_cons h] at hends
      rcases hrest.closed h hends with hdepth | hstrict
      · exact Or.inl hdepth
      · exact Or.inr (by omega)

theorem Reads.unique {c c₁ c₂ : Cursor} {data : Bytes} (h₁ : c.Reads data c₁)
    (h₂ : c.Reads data c₂) : c₁ = c₂ := Except.ok.inj (h₁.symm.trans h₂)

theorem load_idle {c : Cursor} (hc : c.focus = .idle) :
    load ⟨.idle, c.parents, c.done⟩ = c.load := by
  rcases c with ⟨focus, fs, done⟩
  obtain rfl : focus = .idle := hc
  rfl

theorem extend_parents_length (c : Cursor) (vs : List Variable) :
    (c.extend vs).parents.length = c.parents.length := by
  rcases c with ⟨focus, _ | ⟨f, fs⟩, done⟩ <;> rfl

theorem load_pop {c : Cursor} (hc : c.focus = .idle) : c.pop.load = c.load := by
  rw [load, contents_pop hc, load]

theorem pop_focus {c : Cursor} (hc : c.focus = .idle) : c.pop.focus = .idle := by
  rcases c with ⟨focus, _ | ⟨f, fs⟩, done⟩
  · exact hc
  · exact extend_focus _ _

theorem entriesBound_string {c c₁ : Cursor} (hc : c.focus = .idle) {d : ℕ}
    (hd : c.parents.length ≤ d) {n s : Bytes} (hn : Plain n) (hs : Plain s)
    (h : c.Reads ([tableOpen] ++ encode ⟨n, .string s⟩ ++ [tableClose]) c₁) :
    EntriesBound c d [⟨n, .string s⟩] c₁ := by
  have hread : c.Reads _ (c.extend [⟨n, .string s⟩]) :=
    ((reads_header_idle hc hn).trans (reads_string hs n [] c.parents c.done)).trans
      (reads_tableClose_value n s _ _)
  rw [encode_string, ← List.append_assoc] at h
  obtain rfl := hread.unique h
  have hload := load_extend c [⟨n, .string s⟩]
  rw [load_idle hc] at hload
  refine ⟨extend_focus _ _, fun h => h.extend _, ?_, ?_, ?_, ?_⟩
  · rw [extend_parents_length]
    exact hd
  · simp only [weight] at hload ⊢
    omega
  · simp [Bracketed]
  · simp [endsInString]

theorem entriesBound_array {c c₁ : Cursor} (hc : c.focus = .idle) {d : ℕ}
    (hd : c.parents.length ≤ d) {n : Bytes} {items : List Bytes} (hn : Plain n)
    (hitems : ∀ s ∈ items, Plain s)
    (h : c.Reads ([tableOpen] ++ encode ⟨n, .array items⟩ ++ [tableClose]) c₁) :
    EntriesBound c d [⟨n, .array items⟩] c₁ := by
  have hread : c.Reads _ (c.extend [⟨n, .array items⟩]) :=
    (reads_header_idle hc hn).trans (reads_array hitems n [] c.parents c.done)
  rw [encode_array, ← List.append_assoc, hread.append_iff,
    reads_tableClose_idle (extend_focus _ _)] at h
  obtain ⟨hparents, rfl⟩ := h
  have hload := load_extend c [⟨n, .array items⟩]
  rw [load_idle hc] at hload
  have hlength := pop_parents_length hparents
  rw [extend_parents_length] at hlength
  refine ⟨pop_focus (extend_focus _ _), fun h => (h.extend _).pop, by omega, ?_, ?_, ?_⟩
  · rw [load_pop (extend_focus _ _)]
    simp only [weight] at hload ⊢
    omega
  · simp [Bracketed]
  · intro _ _
    exact Or.inl (by omega)

theorem entriesBound_table {c c₁ : Cursor} (hc : c.focus = .idle) {d : ℕ}
    (hd : c.parents.length ≤ d) {n : Bytes} {es : List Variable} (hn : n ≠ [] ∧ Plain n)
    (hes : ∀ c c' : Cursor, c.focus = .idle → c.parents.length ≤ d + 1 →
      c.Reads (entries es) c' → EntriesBound c (d + 1) es c')
    (h : c.Reads ([tableOpen] ++ encode ⟨n, .table es⟩ ++ [tableClose]) c₁) :
    EntriesBound c d [⟨n, .table es⟩] c₁ := by
  rw [encode_table, ← List.append_assoc, List.append_assoc,
    (reads_header_idle hc hn.2).append_iff] at h
  by_cases hnil : es = []
  · -- an empty table is read back as an empty string
    subst hnil
    obtain rfl : c.extend [⟨n, .string []⟩] = c₁ :=
      (reads_tableClose_value n [] c.parents c.done).unique h
    have hload := load_extend c [⟨n, .string []⟩]
    rw [load_idle hc] at hload
    have hlt : (c.extend [⟨n, .string []⟩]).load < c.load + weight d [⟨n, .table []⟩] := by
      simp only [weight] at hload ⊢
      omega
    exact ⟨extend_focus _ _, fun h => h.extend _, by rw [extend_parents_length]; exact hd,
      Nat.le_of_lt hlt, fun _ => hlt, fun _ _ => Or.inr hlt⟩
  · obtain ⟨c₂, hread, hclose⟩ := reads_append.mp h
    have hbound := hes ⟨.idle, ⟨n, []⟩ :: c.parents, c.done⟩ c₂ rfl
      (Nat.succ_le_succ hd) ((reads_entries_open hnil).mp hread)
    obtain ⟨hparents, rfl⟩ := (reads_tableClose_idle hbound.idle).mp hclose
    have hlength := pop_parents_length hparents
    have hdepth := hbound.depth
    have hload := hbound.load
    have htable := load_table n c.parents c.done
    rw [load_idle hc] at htable
    have hsingle : endsInString [⟨n, .table es⟩] = endsInString es := by simp only [endsInString]
    refine ⟨pop_focus hbound.idle, fun hnames => (hbound.named ⟨?_, ?_⟩).pop,
      by omega, ?_, ?_, ?_⟩
    · intro f hf
      rcases List.mem_cons.mp hf with rfl | hf
      · exact hn.1
      · exact hnames.parents f hf
    · simp [Focus.current?]
    · rw [load_pop hbound.idle]
      simp only [weight]
      omega
    · intro hb
      have hstrict := hbound.strict (by simpa [Bracketed, hnil] using hb)
      rw [load_pop hbound.idle]
      simp only [weight]
      omega
    · intro _ hends
      rcases hbound.closed hnil (hsingle ▸ hends) with hearly | hstrict
      · exact Or.inl (by omega)
      · right
        rw [load_pop hbound.idle]
        simp only [weight]
        omega

theorem entriesBound {vs : List Variable} (hclean : Clean vs) {c c' : Cursor} {d : ℕ}
    (hc : c.focus = .idle) (hd : c.parents.length ≤ d) (h : c.Reads (entries vs) c') :
    EntriesBound c d vs c' := by
  induction vs using forest_induction generalizing c c' d with
  | nil =>
      obtain rfl := reads_nil.mp h
      exact entriesBound_nil hc hd
  | string n s vs ih =>
      rw [Clean] at hclean
      rw [entries_cons, reads_append] at h
      obtain ⟨c₁, hv, hvs⟩ := h
      have hbound := entriesBound_string hc hd hclean.1.2 hclean.2.1 hv
      exact entriesBound_cons hbound fun d' hd' => ih hclean.2.2 hbound.idle hd' hvs
  | array n items vs ih =>
      rw [Clean] at hclean
      rw [entries_cons, reads_append] at h
      obtain ⟨c₁, hv, hvs⟩ := h
      have hbound := entriesBound_array hc hd hclean.1.2 hclean.2.1 hv
      exact entriesBound_cons hbound fun d' hd' => ih hclean.2.2 hbound.idle hd' hvs
  | table n es vs ihes ih =>
      rw [Clean] at hclean
      rw [entries_cons, reads_append] at h
      obtain ⟨c₁, hv, hvs⟩ := h
      have hbound := entriesBound_table hc hd hclean.1
        (fun c c' hc hd h => ihes hclean.2.1 hc hd h) hv
      exact entriesBound_cons hbound fun d' hd' => ih hclean.2.2 hbound.idle hd' hvs

end Cursor

theorem decode_encode_string {n s : Bytes} (hn : n ≠ [] ∧ Plain n) (hs : Plain s) :
    decode (encode ⟨n, .string s⟩) = .ok [⟨n, .string s⟩] := by
  have hread := (Cursor.reads_header (c := {}) trivial hn.2).trans
    (Cursor.reads_string hs n [] [] [])
  rw [encode_string]
  refine Cursor.decode_of_reads hread ⟨?_, ?_⟩
  · simp
  · simpa [Focus.current?] using hn.1

theorem decode_encode_array {n : Bytes} {items : List Bytes} (hn : n ≠ [] ∧ Plain n)
    (hitems : ∀ s ∈ items, Plain s) :
    decode (encode ⟨n, .array items⟩) = .ok [⟨n, .array items⟩] := by
  have hread := (Cursor.reads_header (c := {}) trivial hn.2).trans
    (Cursor.reads_array hitems n [] [] [])
  rw [encode_array]
  refine Cursor.decode_of_reads hread ⟨?_, ?_⟩
  · simp [Cursor.leave]
  · simp [Cursor.leave, Focus.current?]

theorem decode_encode_empty_table {n : Bytes} (hn : n ≠ [] ∧ Plain n) :
    decode (encode ⟨n, .table []⟩) = .ok [⟨n, .string []⟩] := by
  have hread := Cursor.reads_header (c := {}) trivial hn.2
  rw [encode_table, entries_nil, List.append_nil]
  refine Cursor.decode_of_reads hread ⟨?_, ?_⟩
  · simp [Cursor.settle]
  · simpa [Focus.current?] using hn.1

section Table

variable {n : Bytes} {es : List Variable} (hn : n ≠ [] ∧ Plain n) (hes : Clean es)
variable (hnil : es ≠ [])

include hn hes hnil

theorem decode_encode_table (hb : Bracketed es) :
    decode (encode ⟨n, .table es⟩) = .ok [⟨n, .table es⟩] := by
  let c : Cursor := ⟨.idle, [⟨n, []⟩], []⟩
  have hnamed : c.Named := ⟨by simpa [c] using hn.1, by simp [c, Focus.current?]⟩
  have hentries := Cursor.reads_entries hes hb (c := c) rfl (List.cons_ne_nil _ _)
  have hread := (Cursor.reads_header (c := {}) trivial hn.2).trans
    ((Cursor.reads_entries_open hnil).mpr hentries)
  have hcontents : (c.extend es).contents = [⟨n, .table es⟩] := Cursor.contents_extend c es
  rw [encode_table]
  rw [Cursor.afterEntries] at hread
  split at hread
  · rw [Cursor.decode_of_reads hread (hnamed.extend es), hcontents]
  · rw [Cursor.decode_of_reads hread (hnamed.extend es).pop,
      Cursor.contents_pop (Cursor.extend_focus c es), hcontents]

theorem bracketed_of_decode_encode
    (h : decode (encode ⟨n, .table es⟩) = .ok [⟨n, .table es⟩]) : Bracketed es := by
  let c : Cursor := ⟨.idle, [⟨n, []⟩], []⟩
  have hnamed : c.Named := ⟨by simpa [c] using hn.1, by simp [c, Focus.current?]⟩
  obtain ⟨c', hread, hfinish⟩ := Cursor.reads_of_decode h
  rw [encode_table, (Cursor.reads_header (c := {}) trivial hn.2).append_iff] at hread
  have hbound := Cursor.entriesBound hes (c := c) (d := 1) rfl (Nat.le_refl 1)
    ((Cursor.reads_entries_open hnil).mp hread)
  have hload : c'.load = weight 0 [⟨n, .table es⟩] := by
    rw [Cursor.load, ← Cursor.finish_eq (hbound.named hnamed), hfinish]
  have hstart : c.load = 1 := by simp [c, Cursor.load, Cursor.contents, Cursor.inside,
    Focus.current?, weight]
  by_contra hb
  have hstrict := hbound.strict hb
  simp only [weight, Nat.zero_add] at hload
  omega

end Table

/-- Decoding the encoding of a variable reports that variable and nothing
else exactly when it has no empty table and every entry of a table before the
last ends in a string. -/
theorem decode_encode_iff (v : Variable) (h : Clean [v]) :
    decode (encode v) = .ok [v] ↔ Bracketed [v] := by
  rcases v with ⟨n, s | items | es⟩
  · rw [Clean] at h
    exact iff_of_true (decode_encode_string h.1 h.2.1) (by simp [Bracketed])
  · rw [Clean] at h
    exact iff_of_true (decode_encode_array h.1 h.2.1) (by simp [Bracketed])
  · rw [Clean] at h
    obtain ⟨hn, hes, -⟩ := h
    by_cases hnil : es = []
    · rw [hnil, decode_encode_empty_table hn]
      simp [Bracketed]
    · have hsingle : Bracketed [⟨n, .table es⟩] ↔ Bracketed es := by simp [Bracketed, hnil]
      rw [hsingle]
      exact ⟨bracketed_of_decode_encode hn hes hnil, decode_encode_table hn hes hnil⟩

theorem decode_encode_strings :
    decode (encode ⟨[116], .table [⟨[97], .string [120]⟩, ⟨[98], .string [121]⟩]⟩) =
      .ok [⟨[116], .table [⟨[97], .string [120]⟩, ⟨[98], .string [121]⟩]⟩] :=
  (decode_encode_iff _ (by simp [Clean, Plain, isControl])).mpr (by simp [Bracketed, endsInString])

/-- A table of an array and a string is read as two variables. -/
theorem decode_encode_array_first :
    Clean [⟨[116], .table [⟨[97], .array []⟩, ⟨[98], .string [121]⟩]⟩] ∧
      decode (encode ⟨[116], .table [⟨[97], .array []⟩, ⟨[98], .string [121]⟩]⟩) =
        .ok [⟨[116], .table [⟨[97], .array []⟩]⟩, ⟨[98], .string [121]⟩] ∧
      decode (encode ⟨[116], .table [⟨[97], .array []⟩, ⟨[98], .string [121]⟩]⟩) ≠
        .ok [⟨[116], .table [⟨[97], .array []⟩, ⟨[98], .string [121]⟩]⟩] := by
  have hread : decode (encode ⟨[116], .table [⟨[97], .array []⟩, ⟨[98], .string [121]⟩]⟩) =
      .ok [⟨[116], .table [⟨[97], .array []⟩]⟩, ⟨[98], .string [121]⟩] := rfl
  refine ⟨by simp [Clean, Plain, isControl], hread, ?_⟩
  rw [hread]
  simp

end Telnetpp.Msdp
