import Telnetpp.Msdp.Cursor

/-!
# Reading pieces of a message

What the cursor makes of a name, a string, an array and the brackets of a
table, and two readings of a cursor that do not depend on what is open: the
variables it holds and the weight of these variables by their depth.
-/

namespace Telnetpp.Msdp
namespace Cursor

def Reads (c : Cursor) (data : Bytes) (c' : Cursor) : Prop :=
  data.foldlM parse c = .ok c'

theorem reads_nil {c c' : Cursor} : c.Reads [] c' ↔ c' = c := by
  simp [Reads, pure, Except.pure, eq_comm]

theorem reads_cons {c c' : Cursor} {by_ : Byte} {data : Bytes} :
    c.Reads (by_ :: data) c' ↔ ∃ c₁, c.parse by_ = .ok c₁ ∧ c₁.Reads data c' := by
  cases h : c.parse by_ <;> simp [Reads, h, bind, Except.bind]

theorem reads_append {c c' : Cursor} {data data' : Bytes} :
    c.Reads (data ++ data') c' ↔ ∃ c₁, c.Reads data c₁ ∧ c₁.Reads data' c' := by
  induction data generalizing c with
  | nil => simp [reads_nil]
  | cons by_ data ih =>
      simp only [List.cons_append, reads_cons, ih]
      constructor
      · rintro ⟨c₁, hstep, c₂, hdata, hdata'⟩
        exact ⟨c₂, ⟨c₁, hstep, hdata⟩, hdata'⟩
      · rintro ⟨c₂, ⟨c₁, hstep, hdata⟩, hdata'⟩
        exact ⟨c₁, hstep, c₂, hdata, hdata'⟩

theorem Reads.trans {c c₁ c' : Cursor} {data data' : Bytes} (h : c.Reads data c₁)
    (h' : c₁.Reads data' c') : c.Reads (data ++ data') c' := reads_append.mpr ⟨c₁, h, h'⟩

theorem Reads.append_iff {c c₁ c' : Cursor} {data data' : Bytes} (h : c.Reads data c₁) :
    c.Reads (data ++ data') c' ↔ c₁.Reads data' c' := by
  rw [reads_append]
  constructor
  · rintro ⟨c₂, h₂, h'⟩
    obtain rfl : c₁ = c₂ := Except.ok.inj (h.symm.trans h₂)
    exact h'
  · exact fun h' => ⟨c₁, h, h'⟩

/-! ## Names, strings and arrays -/

theorem reads_name {n : Bytes} (hn : Plain n) (n₀ : Bytes) (fs : List Frame)
    (done : List Variable) : Reads ⟨.name n₀, fs, done⟩ n ⟨.name (n₀ ++ n), fs, done⟩ := by
  induction n generalizing n₀ with
  | nil => simp [reads_nil]
  | cons by_ n ih =>
      obtain ⟨-, hval, -⟩ := hn.ne List.mem_cons_self
      refine reads_cons.mpr ⟨⟨.name (n₀ ++ [by_]), fs, done⟩, by simp [parse, hval], ?_⟩
      simpa using ih hn.cons (n₀ ++ [by_])

theorem reads_string {s : Bytes} (hs : Plain s) (n s₀ : Bytes) (fs : List Frame)
    (done : List Variable) :
    Reads ⟨.value n s₀, fs, done⟩ s ⟨.value n (s₀ ++ s), fs, done⟩ := by
  induction s generalizing s₀ with
  | nil => simp [reads_nil]
  | cons by_ s ih =>
      obtain ⟨hvar, -, htable, hclose, harray, -⟩ := hs.ne List.mem_cons_self
      refine reads_cons.mpr ⟨⟨.value n (s₀ ++ [by_]), fs, done⟩,
        by simp [parse, hvar, htable, hclose, harray], ?_⟩
      simpa using ih hs.cons (s₀ ++ [by_])

theorem reads_item {s : Bytes} (hs : Plain s) (n : Bytes) (items : List Bytes) (s₀ : Bytes)
    (fs : List Frame) (done : List Variable) :
    Reads ⟨.array n (items ++ [s₀]), fs, done⟩ s ⟨.array n (items ++ [s₀ ++ s]), fs, done⟩ := by
  induction s generalizing s₀ with
  | nil => simp [reads_nil]
  | cons by_ s ih =>
      obtain ⟨-, hval, -, -, -, hclose⟩ := hs.ne List.mem_cons_self
      refine reads_cons.mpr ⟨⟨.array n (items ++ [s₀ ++ [by_]]), fs, done⟩,
        by simp [parse, hval, hclose], ?_⟩
      simpa using ih hs.cons (s₀ ++ [by_])

theorem reads_items {items : List Bytes} (h : ∀ s ∈ items, Plain s) (n : Bytes)
    (items₀ : List Bytes) (fs : List Frame) (done : List Variable) :
    Reads ⟨.array n items₀, fs, done⟩ (items.flatMap fun s => val :: s)
      ⟨.array n (items₀ ++ items), fs, done⟩ := by
  induction items generalizing items₀ with
  | nil => simp [reads_nil]
  | cons s items ih =>
      have hval : Reads ⟨.array n items₀, fs, done⟩ [val] ⟨.array n (items₀ ++ [[]]), fs, done⟩ :=
        rfl
      have hs := reads_item (h s (by simp)) n items₀ [] fs done
      have hitems := ih (fun s hs => h s (List.mem_cons_of_mem _ hs)) (items₀ ++ [s])
      simpa using (hval.trans hs).trans hitems

/-- The body of an array, from the cursor that has just read the VAL of its
variable. -/
theorem reads_array {items : List Bytes} (h : ∀ s ∈ items, Plain s) (n s : Bytes)
    (fs : List Frame) (done : List Variable) :
    Reads ⟨.value n s, fs, done⟩
      ([arrayOpen] ++ items.flatMap (fun s => val :: s) ++ [arrayClose])
      (leave ⟨.idle, fs, done⟩ ⟨n, .array items⟩) := by
  have hopen : Reads ⟨.value n s, fs, done⟩ [arrayOpen] ⟨.array n [], fs, done⟩ := rfl
  have hclose : Reads ⟨.array n items, fs, done⟩ [arrayClose]
      (leave ⟨.idle, fs, done⟩ ⟨n, .array items⟩) := rfl
  have hitems := reads_items h n [] fs done
  exact (hopen.trans hitems).trans hclose

/-! ## Between variables -/

/-- The cursor after a variable: either the variable is finished, or it is a
string that the next byte may finish. -/
def Between (c : Cursor) : Prop :=
  match c.focus with
  | .idle => True
  | .value _ _ => True
  | _ => False

/-- Finish the string that is being read, if any. -/
def settle (c : Cursor) : Cursor :=
  match c.focus with
  | .value n s => c.leave ⟨n, .string s⟩
  | _ => c

theorem leave_parents_length (c : Cursor) (v : Variable) :
    (c.leave v).parents.length = c.parents.length := by
  rcases c with ⟨focus, _ | ⟨f, fs⟩, done⟩ <;> rfl

theorem settle_parents_length (c : Cursor) : c.settle.parents.length = c.parents.length := by
  rcases c with ⟨focus, fs, done⟩
  cases focus with
  | value n s => exact leave_parents_length _ _
  | _ => rfl

theorem settle_focus {c : Cursor} (h : c.Between) : c.settle.focus = .idle := by
  rcases c with ⟨focus, fs, done⟩
  cases focus with
  | idle => rfl
  | value n s => cases fs <;> rfl
  | name n => exact h.elim
  | array n items => exact h.elim

theorem reads_header {c : Cursor} (h : c.Between) {n : Bytes} (hn : Plain n) :
    c.Reads (header n) { c.settle with focus := .value n [] } := by
  have hvar : c.parse var = .ok { c.settle with focus := .name [] } := by
    rcases c with ⟨focus, fs, done⟩
    cases focus with
    | idle => rfl
    | value n s => rfl
    | name n => exact h.elim
    | array n items => exact h.elim
  have hname := (reads_name hn [] c.settle.parents c.settle.done).trans
    (show Reads _ [val] ⟨.value n [], c.settle.parents, c.settle.done⟩ from rfl)
  exact reads_cons.mpr ⟨_, hvar, hname⟩

def pop (c : Cursor) : Cursor :=
  match c.parents with
  | [] => c
  | f :: fs => leave ⟨.idle, fs, c.done⟩ ⟨f.name, .table f.entries⟩

theorem reads_tableClose_value (n s : Bytes) (fs : List Frame) (done : List Variable) :
    Reads ⟨.value n s, fs, done⟩ [tableClose] (leave ⟨.idle, fs, done⟩ ⟨n, .string s⟩) := by
  cases fs <;> rfl

theorem reads_tableClose_idle {c c' : Cursor} (h : c.focus = .idle) :
    c.Reads [tableClose] c' ↔ c.parents ≠ [] ∧ c' = c.pop := by
  rcases c with ⟨focus, fs, done⟩
  obtain rfl : focus = .idle := h
  cases fs with
  | nil => simp [reads_cons, parse, tableClose, var]
  | cons f fs =>
      have hstep : parse ⟨.idle, f :: fs, done⟩ tableClose = .ok (pop ⟨.idle, f :: fs, done⟩) :=
        rfl
      simp [reads_cons, reads_nil, hstep]

theorem pop_parents_length {c : Cursor} (h : c.parents ≠ []) :
    c.pop.parents.length + 1 = c.parents.length := by
  rcases c with ⟨focus, _ | ⟨f, fs⟩, done⟩
  · exact absurd rfl h
  · exact congrArg (· + 1) (leave_parents_length _ _)

theorem reads_tableOpen_idle {c : Cursor} (h : c.focus = .idle) : c.Reads [tableOpen] c := by
  rcases c with ⟨focus, fs, done⟩
  obtain rfl : focus = .idle := h
  rfl

/-! ## The variables a cursor holds -/

/-- Variables put back into the tables around them. -/
def inside : List Frame → List Variable → List Variable
  | [], vs => vs
  | f :: fs, vs => inside fs [⟨f.name, .table (f.entries ++ vs)⟩]

/-- Everything reported, and the variable under construction. -/
def contents (c : Cursor) : List Variable := c.done ++ inside c.parents c.focus.current?.toList

/-- Add finished variables where the cursor stands. -/
def extend (c : Cursor) (vs : List Variable) : Cursor :=
  match c.parents with
  | [] => ⟨.idle, [], c.done ++ vs⟩
  | f :: fs => ⟨.idle, ⟨f.name, f.entries ++ vs⟩ :: fs, c.done⟩

theorem leave_eq_extend (c : Cursor) (v : Variable) : c.leave v = c.extend [v] := rfl

theorem extend_extend (c : Cursor) (vs ws : List Variable) :
    (c.extend vs).extend ws = c.extend (vs ++ ws) := by
  rcases c with ⟨focus, _ | ⟨f, fs⟩, done⟩ <;> simp [extend]

theorem extend_nil {c : Cursor} (h : c.focus = .idle) : c.extend [] = c := by
  rcases c with ⟨focus, _ | ⟨f, fs⟩, done⟩
  · obtain rfl : focus = .idle := h
    simp [extend]
  · obtain rfl : focus = .idle := h
    simp [extend]

@[simp] theorem extend_focus (c : Cursor) (vs : List Variable) :
    (c.extend vs).focus = .idle := by
  rcases c with ⟨focus, _ | ⟨f, fs⟩, done⟩ <;> rfl

theorem contents_extend (c : Cursor) (vs : List Variable) :
    (c.extend vs).contents = c.done ++ inside c.parents vs := by
  rcases c with ⟨focus, _ | ⟨f, fs⟩, done⟩
  · simp [extend, contents, inside, Focus.current?]
  · simp [extend, contents, inside, Focus.current?]

theorem contents_settle (c : Cursor) : c.settle.contents = c.contents := by
  rcases c with ⟨focus, fs, done⟩
  cases focus with
  | value n s => exact contents_extend _ _
  | _ => rfl

theorem contents_pop {c : Cursor} (h : c.focus = .idle) : c.pop.contents = c.contents := by
  rcases c with ⟨focus, _ | ⟨f, fs⟩, done⟩
  · rfl
  · obtain rfl : focus = .idle := h
    exact (contents_extend _ _).trans (by simp [contents, inside, Focus.current?])

/-- Every variable whose name has been read has one. -/
structure Named (c : Cursor) : Prop where
  parents : ∀ f ∈ c.parents, f.name ≠ []
  current : ∀ v ∈ c.focus.current?, v.name ≠ []

theorem Named.extend {c : Cursor} (h : c.Named) (vs : List Variable) : (c.extend vs).Named := by
  rcases c with ⟨focus, _ | ⟨f, fs⟩, done⟩
  · exact ⟨by simp [Cursor.extend], by simp [Focus.current?]⟩
  · refine ⟨?_, by simp [Focus.current?]⟩
    intro g hg
    rcases List.mem_cons.mp hg with rfl | hg
    · exact h.parents f (List.mem_cons_self)
    · exact h.parents g (List.mem_cons_of_mem _ hg)

theorem Named.settle {c : Cursor} (h : c.Named) : c.settle.Named := by
  rcases c with ⟨focus, fs, done⟩
  cases focus with
  | value n s => exact h.extend _
  | _ => exact h

theorem Named.pop {c : Cursor} (h : c.Named) : c.pop.Named := by
  rcases c with ⟨focus, _ | ⟨f, fs⟩, done⟩
  · exact h
  · have hfs : Named ⟨.idle, fs, done⟩ :=
      ⟨fun g hg => h.parents g (List.mem_cons_of_mem _ hg), by simp [Focus.current?]⟩
    exact hfs.extend _

theorem inside_singleton (fs : List Frame) (v : Variable) : inside fs [v] = [plug fs v] := by
  induction fs generalizing v with
  | nil => rfl
  | cons f fs ih => exact ih _

theorem plug_name_ne {fs : List Frame} (hfs : ∀ f ∈ fs, f.name ≠ []) {v : Variable}
    (hv : v.name ≠ []) : (plug fs v).name ≠ [] := by
  induction fs generalizing v with
  | nil => exact hv
  | cons f fs ih =>
      exact ih (fun g hg => hfs g (List.mem_cons_of_mem _ hg)) (hfs f (List.mem_cons_self))

/-- At the end of the input the decoder reports everything it holds. -/
theorem finish_eq {c : Cursor} (h : c.Named) : c.finish = c.contents := by
  rcases c with ⟨focus, fs, done⟩
  cases hv : focus.current? with
  | some v =>
      have hname := plug_name_ne h.parents (h.current v hv)
      simp only [finish, root, contents, hv, Option.toList_some, inside_singleton, if_pos hname]
  | none =>
      cases fs with
      | nil => simp [finish, root, contents, hv, inside]
      | cons f fs =>
          have hfs : ∀ g ∈ fs, g.name ≠ [] :=
            fun g hg => h.parents g (List.mem_cons_of_mem _ hg)
          have hname := plug_name_ne (v := ⟨f.name, .table f.entries⟩) hfs
            (h.parents f (List.mem_cons_self))
          simp only [finish, root, contents, hv, Option.toList_none, inside, inside_singleton,
            List.append_nil, if_pos hname]

theorem decode_of_reads {data : Bytes} {c : Cursor} (h : Reads {} data c) (hc : c.Named) :
    decode data = .ok c.contents := by
  rw [decode_eq, h, Except.map, finish_eq hc]

theorem reads_of_decode {data : Bytes} {vs : List Variable} (h : decode data = .ok vs) :
    ∃ c, Reads {} data c ∧ c.finish = vs := by
  rw [decode_eq] at h
  cases hrun : data.foldlM parse {} with
  | error fault =>
      rw [hrun] at h
      simp [Except.map] at h
  | ok c =>
      rw [hrun] at h
      exact ⟨c, hrun, Except.ok.inj h⟩

/-- What a TABLE_CLOSE does between variables: it finishes the string that
is being read, or else the innermost open table. -/
theorem reads_tableClose {c : Cursor} (h : c.Between) (hparents : c.parents ≠ []) :
    ∃ c', c.Reads [tableClose] c' ∧ c'.focus = .idle ∧ c'.contents = c.contents ∧
      (c.Named → c'.Named) ∧
      (c.focus = .idle → c' = c.pop ∧ c'.parents.length + 1 = c.parents.length) ∧
      (c.focus ≠ .idle → c'.parents.length = c.parents.length) := by
  rcases c with ⟨focus, fs, done⟩
  cases focus with
  | idle =>
      refine ⟨_, (reads_tableClose_idle rfl).mpr ⟨hparents, rfl⟩, ?_, contents_pop rfl,
        Named.pop, fun _ => ⟨rfl, pop_parents_length hparents⟩, fun hidle => absurd rfl hidle⟩
      cases fs with
      | nil => rfl
      | cons f fs => exact extend_focus _ _
  | value n s =>
      exact ⟨_, reads_tableClose_value n s fs done, extend_focus _ _,
        contents_settle ⟨.value n s, fs, done⟩, Named.settle, fun hidle => Focus.noConfusion hidle,
        fun _ => leave_parents_length _ _⟩
  | name n => exact h.elim
  | array n items => exact h.elim

end Cursor

/-! ## Weighing variables by their depth -/

/-- Each variable counts its depth, and a table one more. -/
def weight (d : ℕ) : List Variable → ℕ
  | [] => 0
  | ⟨_, .string _⟩ :: vs => d + weight d vs
  | ⟨_, .array _⟩ :: vs => d + weight d vs
  | ⟨_, .table es⟩ :: vs => d + 1 + weight (d + 1) es + weight d vs

theorem weight_append (d : ℕ) (vs ws : List Variable) :
    weight d (vs ++ ws) = weight d vs + weight d ws := by
  induction vs with
  | nil => simp [weight]
  | cons v vs ih =>
      rcases v with ⟨n, s | items | es⟩ <;> simp only [List.cons_append, weight, ih] <;> omega

theorem weight_cons (d : ℕ) (v : Variable) (vs : List Variable) :
    weight d (v :: vs) = weight d [v] + weight d vs := weight_append d [v] vs

theorem weight_mono {d d' : ℕ} (h : d ≤ d') (vs : List Variable) :
    weight d vs ≤ weight d' vs := by
  induction vs using forest_induction generalizing d d' with
  | nil => simp [weight]
  | string n s vs ih =>
      have := ih h
      simp only [weight]
      omega
  | array n items vs ih =>
      have := ih h
      simp only [weight]
      omega
  | table n es vs ihes ih =>
      have := ih h
      have := ihes (Nat.succ_le_succ h)
      simp only [weight, Nat.succ_eq_add_one] at *
      omega

theorem weight_strictMono {d d' : ℕ} (h : d < d') {vs : List Variable} (hvs : vs ≠ []) :
    weight d vs < weight d' vs := by
  cases vs with
  | nil => exact absurd rfl hvs
  | cons v vs =>
      have hrest := weight_mono (Nat.le_of_lt h) vs
      rcases v with ⟨n, s | items | es⟩
      · simp only [weight]
        omega
      · simp only [weight]
        omega
      · have hes := weight_mono (Nat.succ_le_succ (Nat.le_of_lt h)) es
        simp only [weight, Nat.succ_eq_add_one] at *
        omega

namespace Cursor

def load (c : Cursor) : ℕ := weight 0 c.contents

theorem weight_inside (fs : List Frame) (vs : List Variable) :
    weight 0 (inside fs vs) = weight 0 (inside fs []) + weight fs.length vs := by
  induction fs generalizing vs with
  | nil => simp [inside, weight]
  | cons f fs ih =>
      have hvs := ih [⟨f.name, .table (f.entries ++ vs)⟩]
      have hnil := ih [⟨f.name, .table (f.entries ++ [])⟩]
      simp only [inside, weight, weight_append, List.length_cons] at *
      omega

theorem load_value (n s : Bytes) (fs : List Frame) (done : List Variable) :
    load ⟨.value n s, fs, done⟩ = load ⟨.idle, fs, done⟩ + fs.length := by
  have h := weight_inside fs [⟨n, .string s⟩]
  simp only [load, contents, weight_append, Focus.current?, Option.toList_some,
    Option.toList_none, weight] at *
  omega

theorem load_extend (c : Cursor) (vs : List Variable) :
    (c.extend vs).load = load ⟨.idle, c.parents, c.done⟩ + weight c.parents.length vs := by
  have h := weight_inside c.parents vs
  rw [load, contents_extend]
  simp only [load, contents, weight_append, Focus.current?, Option.toList_none] at *
  omega

/-- Where the cursor stands once the string that is being read is finished. -/
theorem settle_spec {c : Cursor} (h : c.Between) :
    ∃ fs done, c.settle = ⟨.idle, fs, done⟩ ∧ fs.length = c.parents.length ∧
      load ⟨.idle, fs, done⟩ = c.load ∧ (c.Named → Named ⟨.idle, fs, done⟩) := by
  have heq : c.settle = ⟨.idle, c.settle.parents, c.settle.done⟩ := by
    rw [← settle_focus h]
  refine ⟨c.settle.parents, c.settle.done, heq, settle_parents_length c, ?_, ?_⟩
  · rw [← heq, load, contents_settle, load]
  · intro hc
    exact heq ▸ hc.settle

theorem load_table (n : Bytes) (fs : List Frame) (done : List Variable) :
    load ⟨.idle, ⟨n, []⟩ :: fs, done⟩ = load ⟨.idle, fs, done⟩ + fs.length + 1 := by
  have h := weight_inside fs [⟨n, .table []⟩]
  simp only [load, contents, weight_append, Focus.current?, Option.toList_none, inside,
    List.append_nil, weight] at *
  omega

end Cursor
end Telnetpp.Msdp
