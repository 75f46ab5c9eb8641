import Telnetpp.Option
import Telnetpp.Foundation.Split

/-!
# The CHARSET server

The remote offers character sets separated by a byte of its own choice, and
the server passes the list on to its application.
-/

namespace Telnetpp.Charset

open Foundation

/-- `detail::option`. -/
def option : OptionType := 42

def request : Byte := 0x01

def accepted : Byte := 0x02

/-- What `request_charsets` writes: the separator is a semicolon. -/
def requestContent : Bytes := [request, 0x3B]

/-- What `select_charset` writes. -/
def selectContent (charset : Bytes) : Bytes := accepted :: charset

/-! ## The content of an offer -/

/-- The two variables of the loop in `handle_subnegotiation`. -/
structure Charsets where
  advertisedCharsets : List Bytes := []
  charset : Bytes := []
  deriving DecidableEq, Repr

namespace Charsets

def readByte (separator : Byte) (cs : Charsets) (byte : Byte) : Charsets :=
  if byte = separator then
    if cs.charset ≠ [] then ⟨cs.advertisedCharsets ++ [cs.charset], []⟩ else cs
  else { cs with charset := cs.charset ++ [byte] }

/-- The list when the loop has ended. -/
def finish (cs : Charsets) : List Bytes :=
  if cs.charset ≠ [] then cs.advertisedCharsets ++ [cs.charset] else cs.advertisedCharsets

def read (separator : Byte) (data : Bytes) : List Bytes :=
  (data.foldl (readByte separator) {}).finish

end Charsets

/-! ## The server -/

/-- What a server can reach of its world. Each signal calls what is connected to it. -/
structure Server (σ : Type*) where
  state : σ → InternalState
  setState : InternalState → σ → σ
  write : Element → σ → σ
  onStateChanged : σ → σ
  onCharsetsAdvertised : List Bytes → σ → σ
  onCharsetSelected : Bytes → σ → σ

namespace Server

variable {σ : Type*} (s : Server σ)

def handleSubnegotiation (data : Bytes) (w : σ) : σ :=
  match data with
  | first :: separator :: data =>
      if first ≠ request then w
      else
        let advertisedCharsets := Charsets.read separator data
        if advertisedCharsets = [] then w else s.onCharsetsAdvertised advertisedCharsets w
  | _ => w

def server : ServerOption σ where
  optionCode := option
  state := s.state
  setState := s.setState
  write := s.write
  onStateChanged := s.onStateChanged
  handleSubnegotiation := s.handleSubnegotiation

def requestCharsets : σ → σ := s.server.writeSubnegotiation requestContent

def selectCharset (charset : Bytes) (w : σ) : σ :=
  s.server.writeSubnegotiation (selectContent charset) (s.onCharsetSelected charset w)

end Server

/-! ## Reading an offer -/

namespace Charsets

theorem finish_eq (cs : Charsets) :
    cs.finish = cs.advertisedCharsets ++ cutRun cs.charset [] := by
  by_cases h : cs.charset = [] <;> simp [finish, cutRun, h]

/-- The loop has the runs that are over in one variable and the last in the other. -/
theorem foldl_readByte {separator : Byte} (data : Bytes) (cs : Charsets)
    (hcs : separator ∉ cs.charset) :
    (data.foldl (readByte separator) cs).finish =
      cs.advertisedCharsets ++ runs separator (cs.charset ++ data) := by
  induction data generalizing cs with
  | nil => rw [List.foldl_nil, finish_eq, List.append_nil, runs_of_not_mem hcs]
  | cons byte data ih =>
      rw [List.foldl_cons, readByte]
      by_cases hbyte : byte = separator
      · subst hbyte
        rw [if_pos rfl, runs_append_cons hcs, cutRun]
        by_cases hempty : cs.charset = []
        · rw [if_neg (not_not_intro hempty), if_pos hempty, ih cs hcs, hempty, List.nil_append]
        · rw [if_pos hempty, if_neg hempty, ih _ List.not_mem_nil, List.append_assoc]
          rfl
      · have hnext : separator ∉ cs.charset ++ [byte] := by simp [hcs, Ne.symm hbyte]
        rw [if_neg hbyte, ih _ hnext, List.append_assoc, List.singleton_append]

theorem read_eq_runs (separator : Byte) (data : Bytes) :
    read separator data = runs separator data :=
  foldl_readByte data {} List.not_mem_nil

example : read 0x3B [0x3B, 65, 66, 0x3B, 0x3B, 67, 0x3B] = [[65, 66], [67]] := by decide

end Charsets

/-! ## What is advertised -/

/-- Handling the content while the option is active fires `on_charsets_advertised`
with these lists, in order, and does nothing else. -/
def Advertises (content : Bytes) (lists : List (List Bytes)) : Prop :=
  ∀ (σ : Type) (s : Server σ) (w : σ), s.state w = .active →
    s.server.subnegotiate content w =
      lists.foldl (fun w charsets => s.onCharsetsAdvertised charsets w) w

/-- A world that is nothing but the lists heard so far tells them apart. -/
theorem Advertises.unique {content : Bytes} {lists lists' : List (List Bytes)}
    (h : Advertises content lists) (h' : Advertises content lists') : lists = lists' := by
  let s : Server (List (List Bytes)) :=
    { state := fun _ => .active
      setState := fun _ => id
      write := fun _ => id
      onStateChanged := id
      onCharsetsAdvertised := fun charsets heard => heard ++ [charsets]
      onCharsetSelected := fun _ => id }
  have hheard (lists heard : List (List Bytes)) :
      lists.foldl (fun w charsets => s.onCharsetsAdvertised charsets w) heard =
        heard ++ lists := by
    induction lists generalizing heard with
    | nil => exact (List.append_nil heard).symm
    | cons charsets lists ih => exact (ih _).trans (List.append_assoc _ _ _)
  calc lists = lists.foldl (fun w charsets => s.onCharsetsAdvertised charsets w) [] :=
        (hheard lists []).symm
    _ = lists'.foldl (fun w charsets => s.onCharsetsAdvertised charsets w) [] :=
        (h _ s [] rfl).symm.trans (h' _ s [] rfl)
    _ = lists' := hheard lists' []

/-- A request with a byte behind its separator that differs from it. -/
def Offer (content : Bytes) : Prop :=
  2 ≤ content.length ∧ content[0]? = some request ∧
    ∃ byte ∈ content.drop 2, content[1]? ≠ some byte

instance (content : Bytes) : Decidable (Offer content) :=
  inferInstanceAs (Decidable (_ ∧ _ ∧ _))

theorem offer_cons {first separator : Byte} {data : Bytes} :
    Offer (first :: separator :: data) ↔ first = request ∧ ∃ byte ∈ data, byte ≠ separator := by
  simp [Offer, eq_comm]

theorem advertises_request {separator : Byte} {data : Bytes} (h : runs separator data ≠ []) :
    Advertises (request :: separator :: data) [runs separator data] := by
  intro σ s w hactive
  have hread : Charsets.read separator data ≠ [] := by rwa [Charsets.read_eq_runs]
  calc s.server.subnegotiate (request :: separator :: data) w
      = s.handleSubnegotiation (request :: separator :: data) w := if_pos hactive
    _ = s.onCharsetsAdvertised (Charsets.read separator data) w := if_neg hread
    _ = s.onCharsetsAdvertised (runs separator data) w := by rw [Charsets.read_eq_runs]

theorem advertises_nil {content : Bytes} (h : ¬ Offer content) : Advertises content [] := by
  intro σ s w hactive
  refine (if_pos hactive : s.server.subnegotiate content w = _).trans ?_
  match content with
  | [] => rfl
  | [_] => rfl
  | first :: separator :: data =>
      rw [offer_cons, not_and_or, ← runs_ne_nil_iff, not_not] at h
      show s.handleSubnegotiation (first :: separator :: data) w = w
      rw [Server.handleSubnegotiation, Charsets.read_eq_runs]
      rcases h with hfirst | hruns
      · rw [if_pos hfirst]
      · rw [if_pos hruns, ite_self]

/-- What a server writes is no offer to another. -/
theorem advertises_written (charset : Bytes) :
    Advertises requestContent [] ∧ Advertises (selectContent charset) [] := by
  refine ⟨advertises_nil (by decide), advertises_nil fun h => ?_⟩
  have haccepted : some accepted = some request := h.2.1
  exact absurd haccepted (by decide)

theorem exists_advertises (content : Bytes) :
    ∃ lists, Advertises content lists ∧ lists.length ≤ 1 ∧ (lists ≠ [] ↔ Offer content) ∧
      ∀ charsets ∈ lists, ∃ separator, content[1]? = some separator ∧
        ∀ names, Runs separator (content.drop 2) names ↔ names = charsets := by
  by_cases hoffer : Offer content
  · obtain ⟨separator, data, rfl⟩ : ∃ separator data, content = request :: separator :: data := by
      match content, hoffer.1 with
      | first :: separator :: data, _ => exact ⟨separator, data, by rw [(offer_cons.mp hoffer).1]⟩
    have hruns : runs separator data ≠ [] := runs_ne_nil_iff.mpr (offer_cons.mp hoffer).2
    refine ⟨[runs separator data], advertises_request hruns, Nat.le_refl _,
      iff_of_true (List.cons_ne_nil _ _) hoffer, ?_⟩
    intro charsets hcharsets
    obtain rfl := List.mem_singleton.mp hcharsets
    exact ⟨separator, rfl, fun names => runs_iff⟩
  · exact ⟨[], advertises_nil hoffer, Nat.zero_le _, iff_of_false (not_not_intro rfl) hoffer,
      fun _ h => absurd h List.not_mem_nil⟩

theorem advertises_joined {separator : Byte} (lead : ℕ) {first : Bytes} {rest : List (ℕ × Bytes)}
    (trail : ℕ) (h : ∀ name ∈ first :: rest.map Prod.snd, name ≠ [] ∧ separator ∉ name) :
    Advertises (request :: separator :: joined separator lead first rest trail)
      [first :: rest.map Prod.snd] := by
  have hruns := runs_iff.mp (runs_joined lead trail h)
  rw [hruns]
  exact advertises_request (hruns ▸ List.cons_ne_nil _ _)

/-- An offer is passed on as the runs between its separators, anything else not at all,
and joined names are an offer of themselves. -/
theorem advertises_offers :
    (∀ content, ∃ lists, (∀ lists', Advertises content lists' ↔ lists' = lists) ∧
      lists.length ≤ 1 ∧ (lists ≠ [] ↔ Offer content) ∧
      ∀ charsets ∈ lists, ∃ separator, content[1]? = some separator ∧
        ∀ names, Runs separator (content.drop 2) names ↔ names = charsets) ∧
    ∀ separator lead first rest trail,
      (∀ name ∈ first :: rest.map Prod.snd, name ≠ [] ∧ separator ∉ name) →
      Advertises (request :: separator :: joined separator lead first rest trail)
        [first :: rest.map Prod.snd] := by
  refine ⟨fun content => ?_, fun separator lead first rest trail h =>
    advertises_joined lead trail h⟩
  obtain ⟨lists, hadv, hlists⟩ := exists_advertises content
  exact ⟨lists, fun lists' => ⟨fun h => h.unique hadv, fun h => h ▸ hadv⟩, hlists⟩

end Telnetpp.Charset
