import Telnetpp.Msdp.Encoder
import Telnetpp.Msdp.Rendering

/-!
# The brackets of a table

The standard puts one pair of brackets around a table, and the encoder puts
one around every entry. The two agree where every table has one entry, and
nowhere else, whatever bytes the names and strings are made of.
-/

namespace Telnetpp.Msdp

/-- Every table has exactly one entry. -/
def SingleEntries : List Variable → Prop
  | [] => True
  | ⟨_, .string _⟩ :: vs => SingleEntries vs
  | ⟨_, .array _⟩ :: vs => SingleEntries vs
  | ⟨_, .table es⟩ :: vs => (es.length = 1 ∧ SingleEntries es) ∧ SingleEntries vs

theorem singleEntries_cons (v : Variable) (vs : List Variable) :
    SingleEntries (v :: vs) ↔ SingleEntries [v] ∧ SingleEntries vs := by
  rcases v with ⟨n, s | items | es⟩ <;> simp [SingleEntries]

theorem singleEntries_table (n : Bytes) (es : List Variable) :
    SingleEntries [⟨n, .table es⟩] ↔ es.length = 1 ∧ SingleEntries es := by
  simp [SingleEntries]

/-! ## The rendering of one variable -/

theorem render_string (n s : Bytes) : render ⟨n, .string s⟩ = header n ++ s := by
  rw [render, Value.render]

theorem render_array (n : Bytes) (items : List Bytes) : render ⟨n, .array items⟩ =
    header n ++ ([arrayOpen] ++ items.flatMap (fun s => val :: s) ++ [arrayClose]) := by
  rw [render, Value.render]

theorem render_table (n : Bytes) (es : List Variable) : render ⟨n, .table es⟩ =
    header n ++ ([tableOpen] ++ renderAll es ++ [tableClose]) := by
  rw [render, Value.render]

theorem head?_renderAll {vs : List Variable} (h : vs ≠ []) (rest : Bytes) :
    (renderAll vs ++ rest).head? = some var := by
  obtain ⟨⟨n, value⟩, vs, rfl⟩ := List.exists_cons_of_ne_nil h
  rw [renderAll, render]
  rfl

/-! ## Where the two agree -/

theorem encode_eq_render {vs : List Variable} (h : SingleEntries vs) :
    ∀ v ∈ vs, encode v = render v := by
  induction vs using forest_induction with
  | nil => simp
  | string n s vs ih =>
      rw [singleEntries_cons] at h
      exact List.forall_mem_cons.mpr
        ⟨(encode_string n s).trans (render_string n s).symm, ih h.2⟩
  | array n items vs ih =>
      rw [singleEntries_cons] at h
      exact List.forall_mem_cons.mpr
        ⟨(encode_array n items).trans (render_array n items).symm, ih h.2⟩
  | table n es vs ihes ih =>
      rw [singleEntries_cons, singleEntries_table] at h
      obtain ⟨⟨hone, hes⟩, hvs⟩ := h
      refine List.forall_mem_cons.mpr ⟨?_, ih hvs⟩
      obtain ⟨w, rfl⟩ := List.length_eq_one_iff.mp hone
      have hw : encode w = render w := ihes hes w (List.mem_singleton_self w)
      simp [encode_table, render_table, entries_cons, renderAll, hw]

/-- A table of no entries or of more than one makes a difference at its first
bracket or behind its first entry, with anything at all following, as long as
it is no TABLE_OPEN that follows the encoding. -/
theorem render_ne_encode (vs : List Variable) :
    ∀ v ∈ vs, ¬ SingleEntries [v] → ∀ s t : Bytes, t.head? ≠ some tableOpen →
      render v ++ s ≠ encode v ++ t := by
  induction vs using forest_induction with
  | nil => simp
  | string n s vs ih =>
      exact List.forall_mem_cons.mpr ⟨fun h => absurd (by simp [SingleEntries]) h, ih⟩
  | array n items vs ih =>
      exact List.forall_mem_cons.mpr ⟨fun h => absurd (by simp [SingleEntries]) h, ih⟩
  | table n es vs ihes ih =>
      refine List.forall_mem_cons.mpr ⟨?_, ih⟩
      intro hsingle s t ht heq
      rw [render_table, encode_table, List.append_assoc, List.append_assoc (header n)] at heq
      have hbody := List.append_cancel_left heq
      cases es with
      | nil =>
          apply ht
          rw [entries_nil, List.nil_append] at hbody
          rw [← hbody]
          rfl
      | cons w ws =>
          have hentries : render w ++ (renderAll ws ++ (tableClose :: s)) =
              encode w ++ (tableClose :: (entries ws ++ t)) := by
            rw [entries_cons, renderAll] at hbody
            simpa using hbody
          by_cases hw : SingleEntries [w]
          · -- the first entry is the same, and the encoder closes the table behind it
            have hmore : ws ≠ [] := by
              rintro rfl
              exact hsingle ((singleEntries_table n [w]).mpr ⟨rfl, hw⟩)
            rw [encode_eq_render hw w (List.mem_singleton_self w)] at hentries
            have hhead := head?_renderAll hmore (tableClose :: s)
            rw [List.append_cancel_left hentries] at hhead
            exact absurd (Option.some.inj hhead) (by decide)
          · have hclose : (tableClose :: (entries ws ++ t)).head? ≠ some tableOpen := by
              intro hhead
              exact absurd (Option.some.inj hhead) (by decide)
            exact ihes w List.mem_cons_self hw _ _ hclose hentries

/-- The encoding of a variable is its standard rendering exactly when every
table in it, at any depth, has one entry. -/
theorem encodeVariable_iff (v : Variable) (storage : Bytes) :
    encodeVariable v storage = storage ++ render v ↔ SingleEntries [v] := by
  rw [encodeVariable_eq, List.append_cancel_left_eq]
  constructor
  · intro heq
    by_contra hsingle
    apply render_ne_encode [v] v (List.mem_singleton_self v) hsingle [] [] (by simp)
    rw [heq]
  · intro hsingle
    exact encode_eq_render hsingle v (List.mem_singleton_self v)

/-- A table of two strings, with a pair of brackets around each. -/
theorem encodeVariable_two_entries :
    encodeVariable ⟨[116], .table [⟨[97], .string [120]⟩, ⟨[98], .string [121]⟩]⟩ [] =
        [1, 116, 2, 3, 1, 97, 2, 120, 4, 3, 1, 98, 2, 121, 4] ∧
      render ⟨[116], .table [⟨[97], .string [120]⟩, ⟨[98], .string [121]⟩]⟩ =
        [1, 116, 2, 3, 1, 97, 2, 120, 1, 98, 2, 121, 4] ∧
      encodeVariable ⟨[116], .table [⟨[97], .string [120]⟩, ⟨[98], .string [121]⟩]⟩ [] ≠
        [] ++ render ⟨[116], .table [⟨[97], .string [120]⟩, ⟨[98], .string [121]⟩]⟩ := by
  have hencode :
      encodeVariable ⟨[116], .table [⟨[97], .string [120]⟩, ⟨[98], .string [121]⟩]⟩ [] =
        [1, 116, 2, 3, 1, 97, 2, 120, 4, 3, 1, 98, 2, 121, 4] := rfl
  have hrender : render ⟨[116], .table [⟨[97], .string [120]⟩, ⟨[98], .string [121]⟩]⟩ =
      [1, 116, 2, 3, 1, 97, 2, 120, 1, 98, 2, 121, 4] := rfl
  refine ⟨hencode, hrender, ?_⟩
  rw [hencode, hrender]
  decide

end Telnetpp.Msdp
