import Telnetpp.Msdp.Encoder
import Telnetpp.Negotiation.Contents

/-!
# MSDP between two sessions

The client and the server of MSDP differ in their half alone: each sends
variables, and signals the variables that it decodes. Between two of them every
variable that survives its encoding is received once and in order.
-/

namespace Telnetpp.Msdp

open Foundation SessionNet

/-- `detail::option`. -/
def option : OptionType := 69

/-- The variables that `on_receive` has been called with. After a fault of the
decoder nothing more is said. -/
structure Inbox where
  received : List Variable := []
  fault : Option Fault := none

def Inbox.handleSubnegotiation (data : Bytes) (inbox : Inbox) : Inbox :=
  match inbox.fault with
  | some _ => inbox
  | none =>
      let r := Decoder.signals {} data
      { received := inbox.received ++ r.1, fault := r.2 }

def send (v : Variable) : FreeElement := .subnegotiation option (encode v)

/-- A session with an MSDP option, if it is one of the options. -/
def endpoint (half : Half) (options : List OptionId) : Application Variable Inbox where
  options := options
  handleSubnegotiation id data _ inbox :=
    if id = ⟨half, option⟩ then (inbox.handleSubnegotiation data, []) else (inbox, [])
  request v _ inbox := (inbox, [send v])

def client (options : List OptionId) : Application Variable Inbox := endpoint .client options

def server (options : List OptionId) : Application Variable Inbox := endpoint .server options

/-! ## What is read of what is sent -/

/-- What is read of the encoding of the variable is the variable. -/
def Legible (v : Variable) : Prop := decode (encode v) = .ok [v]

/-- So it is of a clean variable that is bracketed. -/
theorem legible_of_bracketed {v : Variable} (hclean : Clean [v]) (hb : Bracketed [v]) :
    Legible v := by
  rcases v with ⟨n, s | items | es⟩
  · rw [Clean] at hclean
    exact decode_encode_string hclean.1 hclean.2.1
  · rw [Clean] at hclean
    exact decode_encode_array hclean.1 hclean.2.1
  · rw [Clean] at hclean
    have hes : es ≠ [] ∧ Bracketed es := by simpa [Bracketed] using hb
    exact decode_encode_table hclean.1 hclean.2.1 hes.1 hes.2

/-- The content is the encoding of a legible variable. -/
def Readable (data : Bytes) : Prop := ∃ v, Legible v ∧ data = encode v

def decoded (data : Bytes) : List Variable :=
  match decode data with
  | .ok vs => vs
  | .error _ => []

theorem Legible.decoded_encode {v : Variable} (h : Legible v) : decoded (encode v) = [v] := by
  rw [decoded, h]

theorem decoded_map_encode {vs : List Variable} (h : ∀ v ∈ vs, Legible v) :
    (vs.map encode).flatMap decoded = vs := by
  induction vs with
  | nil => rfl
  | cons v vs ih =>
      obtain ⟨hv, hvs⟩ := List.forall_mem_cons.mp h
      rw [List.map_cons, List.flatMap_cons, hv.decoded_encode, ih hvs, List.singleton_append]

theorem Readable.handleSubnegotiation {data : Bytes} (h : Readable data) (vs : List Variable) :
    Inbox.handleSubnegotiation data { received := vs } = { received := vs ++ decoded data } := by
  obtain ⟨v, hv, rfl⟩ := h
  rw [Inbox.handleSubnegotiation, signals_of_decode hv, hv.decoded_encode]

/-! ## One endpoint -/

section Endpoint

variable (half : Half) (options : List OptionId)

def record (inbox : Inbox) (h : OptionId × Bytes) : Inbox :=
  if h.1 = ⟨half, option⟩ then inbox.handleSubnegotiation h.2 else inbox

theorem records : (endpoint half options).Records (record half) where
  onByte _ _ _ := rfl
  onCommand _ _ _ := rfl
  onStateChanged _ _ _ := rfl
  handleSubnegotiation id data states inbox := by
    simp only [endpoint, record]
    split <;> rfl

theorem sends : (endpoint half options).Sends (contentOf option) (fun v => [encode v])
    fun _ => [] where
  negotiation _ := rfl
  onByte _ _ _ := rfl
  onCommand _ _ _ := rfl
  onStateChanged _ _ _ := rfl
  handleSubnegotiation id data states inbox := by
    simp only [endpoint]
    split <;> rfl
  request _ _ _ := rfl

theorem foldl_record {handled : List (OptionId × Bytes)}
    (h : ∀ entry ∈ handled, entry.1.code = option → Readable entry.2) (vs : List Variable) :
    handled.foldl (record half) { received := vs } =
      { received := vs ++ (((handled.filter fun entry => entry.1 = ⟨half, option⟩).map
          Prod.snd).flatMap decoded) } := by
  induction handled generalizing vs with
  | nil => simp
  | cons entry handled ih =>
      obtain ⟨hentry, hhandled⟩ := List.forall_mem_cons.mp h
      by_cases hid : entry.1 = ⟨half, option⟩
      · have hread := (hentry (congrArg OptionId.code hid)).handleSubnegotiation vs
        simp [record, hid, hread, ih hhandled]
      · simp [record, hid, ih hhandled]

end Endpoint

/-- The variables on their way to a session. -/
def inFlight (p : Parser) (data : Bytes) : List Variable :=
  ((p.reads data).filterMap (contentOf option)).flatMap decoded

/-! ## Two sessions -/

/-- The input sends no variable that does not survive its encoding. -/
def LegibleInput : AppInput Variable → Prop := AppInput.Within Legible

theorem sendsOnly (half : Half) (options : List OptionId) :
    (endpoint half options).SendsOnly (contentOf option) Readable Legible :=
  (sends half options).only fun v hv => List.forall_mem_singleton.mpr ⟨v, hv, rfl⟩

/-- What the left end sends in an event. -/
def sentLeft (e : SessionEvent Variable Variable) : List Variable :=
  SessionNet.sentLeft (fun v => [v]) e

def sentRight (e : SessionEvent Variable Variable) : List Variable :=
  SessionNet.sentRight (fun v => [v]) e

theorem encode_sentLeft (e : SessionEvent Variable Variable) :
    SessionNet.sentLeft (fun v => [encode v]) e = (sentLeft e).map encode := by
  cases e with
  | actLeft i => cases i <;> rfl
  | _ => rfl

theorem legible_sentLeft {es : List (SessionEvent Variable Variable)}
    (h : ∀ e ∈ es, e.Meets LegibleInput LegibleInput) :
    ∀ v ∈ es.flatMap sentLeft, Legible v := by
  intro v hv
  obtain ⟨e, he, hv⟩ := List.mem_flatMap.mp hv
  cases e with
  | actLeft i =>
      cases i with
      | call id c => exact absurd hv List.not_mem_nil
      | request w =>
          obtain rfl := List.mem_singleton.mp hv
          exact h _ he
  | _ => exact absurd hv List.not_mem_nil

section Exchange

variable (half : Half) (options options' : List OptionId)
variable {es₁ es₂ : List (SessionEvent Variable Variable)}

/-- Two sessions with MSDP of which the left one has the given half. -/
abbrev exchange (half : Half) (options options' : List OptionId)
    (es : List (SessionEvent Variable Variable)) : SessionNet Inbox Inbox :=
  run (step (endpoint half options) (endpoint half.other options')) (start {} {}) es

/-- A session that is sent only legible variables decodes all of them. -/
theorem inbox_right (h : ∀ e ∈ es₁, e.Meets LegibleInput LegibleInput) :
    let n := exchange half options options' es₁
    n.right.1.1.app = ⟨(n.right.1.1.handledBy ⟨half.other, option⟩).flatMap decoded, none⟩ := by
  have hrecorded := recorded_right (endpoint half options) (records half.other options')
    (fun _ _ _ _ => rfl) ({} : Inbox) ({} : Inbox)
    fun e he => (h e he).imp (fun _ _ => trivial) fun _ hi => hi
  have honly := only_run (sendsOnly half options) (sendsOnly half.other options')
    ({} : Inbox) ({} : Inbox) h
  exact hrecorded.trans (foldl_record half.other honly.right [])

theorem exchanged_right (h₁ : ∀ e ∈ es₁, e.Meets LegibleInput LegibleInput)
    (h₂ : ∀ e ∈ es₂, e.Meets LegibleInput LegibleInput)
    (hleft : (exchange half options options' es₁).left.1.1.state ⟨half, option⟩ = .active)
    (hright : (exchange half options options' es₁).right.1.1.state ⟨half.other, option⟩ = .active)
    (hstays : ∀ e ∈ es₂, e.Meets (Application.Stays ⟨half, option⟩)
      (Application.Stays ⟨half.other, option⟩))
    (hlast : (endpoint half.other options').lastInstalled option = some ⟨half.other, option⟩) :
    let n := exchange half options options' es₁
    let m := exchange half options options' (es₁ ++ es₂)
    m.right.1.1.app.received ++ inFlight m.right.1.2 m.toRight =
      n.right.1.1.app.received ++ inFlight n.right.1.2 n.toRight ++ es₂.flatMap sentLeft := by
  intro n m
  have hn := inbox_right half options options' h₁
  have hm := inbox_right half options options' (List.forall_mem_append.mpr ⟨h₁, h₂⟩)
  obtain ⟨during, hsent, htaken⟩ := conveysRight_of_bothActive _ _ hleft hright hstays hlast
  obtain ⟨es, hreads⟩ := reads_run (A := endpoint half options)
    (B := endpoint half.other options') (reads_start {} {}) es₁
  have hsees := sees_run (sends half options) (endpoint half.other options') hreads es₂
  have hduring : during = (es₂.flatMap sentLeft).map encode := by
    rw [List.append_cancel_left (hsent.symm.trans hsees), List.map_flatMap]
    exact List.flatMap_congr fun e _ => encode_sentLeft e
  rw [← run_append, hduring] at htaken
  have hdecoded := congrArg (List.flatMap decoded) htaken
  rw [List.flatMap_append, List.flatMap_append, List.flatMap_append,
    decoded_map_encode (legible_sentLeft h₂)] at hdecoded
  rw [congrArg Inbox.received hm, congrArg Inbox.received hn]
  exact hdecoded

/-- The same sessions seen from the other end. -/
theorem exchange_swap (es : List (SessionEvent Variable Variable)) :
    exchange .client options' options (es.map NetEvent.swap) =
      Net.swap (exchange .server options options' es) :=
  run_swap (server options) (client options') (start {} {}) es

theorem meets_swap {L R : AppInput Variable → Prop} {es : List (SessionEvent Variable Variable)}
    (h : ∀ e ∈ es, e.Meets L R) : ∀ e ∈ es.map NetEvent.swap, e.Meets R L := by
  intro e he
  obtain ⟨e, hmem, rfl⟩ := List.mem_map.mp he
  have hmeets := h e hmem
  cases e <;> exact hmeets

theorem exchanged_left (h₁ : ∀ e ∈ es₁, e.Meets LegibleInput LegibleInput)
    (h₂ : ∀ e ∈ es₂, e.Meets LegibleInput LegibleInput)
    (hserver : (exchange .server options options' es₁).left.1.1.state ⟨.server, option⟩ = .active)
    (hclient : (exchange .server options options' es₁).right.1.1.state ⟨.client, option⟩ = .active)
    (hstays : ∀ e ∈ es₂, e.Meets (Application.Stays ⟨.server, option⟩)
      (Application.Stays ⟨.client, option⟩))
    (hlast : (server options).lastInstalled option = some ⟨.server, option⟩) :
    let n := exchange .server options options' es₁
    let m := exchange .server options options' (es₁ ++ es₂)
    m.left.1.1.app.received ++ inFlight m.left.1.2 m.toLeft =
      n.left.1.1.app.received ++ inFlight n.left.1.2 n.toLeft ++ es₂.flatMap sentRight := by
  have hswap := exchanged_right .client options' options (meets_swap h₁) (meets_swap h₂)
    (by rw [exchange_swap]; exact hclient) (by rw [exchange_swap]; exact hserver)
    (meets_swap hstays) hlast
  rw [← List.map_append, exchange_swap, exchange_swap, List.flatMap_map] at hswap
  have hsent : (es₂.flatMap fun e => sentLeft e.swap) = es₂.flatMap sentRight :=
    List.flatMap_congr fun e _ => sentLeft_swap _ e
  rw [hsent] at hswap
  exact hswap

/-- As long as only legible variables are sent no decoding goes wrong. -/
theorem fault_exchange (h : ∀ e ∈ es₁, e.Meets LegibleInput LegibleInput) :
    let n := exchange .server options options' es₁
    n.left.1.1.app.fault = none ∧ n.right.1.1.app.fault = none := by
  have hleft := inbox_right .client options' options (meets_swap h)
  rw [exchange_swap] at hleft
  exact ⟨congrArg Inbox.fault hleft,
    congrArg Inbox.fault (inbox_right .server options options' h)⟩

end Exchange

/-- In every run of a session with an MSDP server and one with an MSDP client in
which only legible variables are sent no decoding goes wrong. From a state in which
both options are active on, as long as neither is deactivated, the variables received
at an end and those on their way to it are the ones before and then those that the
other end has sent since, if contents of the code are routed to the option there. -/
theorem run_exchanges (options options' : List OptionId)
    (es₁ es₂ : List (SessionEvent Variable Variable))
    (hlegible : ∀ e ∈ es₁ ++ es₂, e.Meets LegibleInput LegibleInput) :
    let n := run (step (server options) (client options')) (start {} {}) es₁
    let m := run (step (server options) (client options')) n es₂
    (m.left.1.1.app.fault = none ∧ m.right.1.1.app.fault = none) ∧
      (n.left.1.1.state ⟨.server, option⟩ = .active →
        n.right.1.1.state ⟨.client, option⟩ = .active →
        (∀ e ∈ es₂, e.Meets (Application.Stays ⟨.server, option⟩)
          (Application.Stays ⟨.client, option⟩)) →
        ((server options).lastInstalled option = some ⟨.server, option⟩ →
          m.left.1.1.app.received ++ inFlight m.left.1.2 m.toLeft =
            n.left.1.1.app.received ++ inFlight n.left.1.2 n.toLeft ++ es₂.flatMap sentRight) ∧
        ((client options').lastInstalled option = some ⟨.client, option⟩ →
          m.right.1.1.app.received ++ inFlight m.right.1.2 m.toRight =
            n.right.1.1.app.received ++ inFlight n.right.1.2 n.toRight ++
              es₂.flatMap sentLeft)) := by
  intro n m
  obtain ⟨h₁, h₂⟩ := List.forall_mem_append.mp hlegible
  have happend : exchange .server options options' (es₁ ++ es₂) = m := run_append _ _ es₁ es₂
  refine ⟨happend ▸ fault_exchange options options' hlegible, fun hserver hclient hstays =>
    ⟨fun hlast => ?_, fun hlast => ?_⟩⟩
  · exact happend ▸ exchanged_left options options' h₁ h₂ hserver hclient hstays hlast
  · exact happend ▸ exchanged_right .server options options' h₁ h₂ hserver hclient hstays hlast

/-- A string is sent by the server once the client has accepted. -/
theorem run_exchanges_string :
    let n := run (step (server [⟨.server, 69⟩]) (client [⟨.client, 69⟩, ⟨.client, 24⟩]))
      (start {} {}) [.actLeft (.call ⟨.server, 69⟩ .activate), .deliverRight 3, .deliverLeft 3]
    let m := run (step (server [⟨.server, 69⟩]) (client [⟨.client, 69⟩, ⟨.client, 24⟩])) n
      [.actLeft (.request ⟨[110], .string [118]⟩), .deliverRight 9]
    m.right.1.1.app.fault = none ∧
      m.right.1.1.app.received ++ inFlight m.right.1.2 m.toRight = [⟨[110], .string [118]⟩] :=
  have hlegible : Legible ⟨[110], .string [118]⟩ :=
    legible_of_bracketed (by simp [Clean, Plain, isControl]) (by simp [Bracketed])
  have h := run_exchanges [⟨.server, 69⟩] [⟨.client, 69⟩, ⟨.client, 24⟩]
    [.actLeft (.call ⟨.server, 69⟩ .activate), .deliverRight 3, .deliverLeft 3]
    [.actLeft (.request ⟨[110], .string [118]⟩), .deliverRight 9]
    (by simpa [NetEvent.Meets, LegibleInput, AppInput.Within] using hlegible)
  ⟨h.1.2, (h.2 rfl rfl (by simp [NetEvent.Meets, Application.Stays])).2 rfl⟩

end Telnetpp.Msdp
