import Mathlib.Data.List.Basic

/-! The message bus: a publisher that sends each message part by part, and a subscriber that
receives them joined. -/

namespace SwissArmyHammer.Leader

abbrev Part := List UInt8

structure BusMessage (M : Type) where
  topic : M → Part
  toFrames : M → List Part
  fromFrames : Part → List Part → Except String M
  fromFrames_toFrames : ∀ m, fromFrames (topic m) (toFrames m) = .ok m

structure Socket where
  pending : List Part
  sent : List (List Part)
  deriving DecidableEq

def Socket.send (sock : Socket) (part : Part) (more : Bool) : Socket :=
  if more then { sock with pending := sock.pending ++ [part] }
  else { pending := [], sent := sock.sent ++ [sock.pending ++ [part]] }

structure WireMessage where
  topic : Part
  frames : List Part
  deriving DecidableEq

def sendFrames (fails : Nat → Bool) : Nat → List Part → Socket → Socket
  | _, [], sock => sock
  | k, frame :: rest, sock =>
    if fails k then sock else sendFrames fails (k + 1) rest (sock.send frame (!rest.isEmpty))

def sendMessage (fails : Nat → Bool) (wire : WireMessage) (sock : Socket) : Socket :=
  if fails 0 then sock
  else sendFrames fails 1 wire.frames (sock.send wire.topic (!wire.frames.isEmpty))

def sendMessagesLoop : List (WireMessage × (Nat → Bool)) → Socket → Socket
  | [], sock => sock
  | (wire, fails) :: rest, sock => sendMessagesLoop rest (sendMessage fails wire sock)

inductive RecvResult
  | parts (parts : List Part)
  | eagain
  | eterm
  | error (e : String)

section

variable {M : Type} (bus : BusMessage M)

def handleRecvResult : RecvResult → List (Except String M) × Bool
  | .parts [] => ([], true)
  | .parts [_] => ([], true)
  | .parts (topic :: frame :: frames) => ([bus.fromFrames topic (frame :: frames)], true)
  | .eagain => ([], true)
  | .eterm => ([], false)
  | .error e => ([.error e], true)

def subscriberLoop : List RecvResult → List (Except String M)
  | [] => []
  | result :: rest =>
    (handleRecvResult bus result).1 ++
      if (handleRecvResult bus result).2 then subscriberLoop rest else []

def BusMessage.wire (m : M) : WireMessage := ⟨bus.topic m, bus.toFrames m⟩

end

def WireMessage.parts (wire : WireMessage) : List Part := wire.topic :: wire.frames

def Arrives (sent : List (List Part)) : List RecvResult → Prop
  | [] => sent = []
  | .parts parts :: rest => sent.head? = some parts ∧ Arrives sent.tail rest
  | .eagain :: rest => Arrives sent rest
  | .eterm :: _ => False
  | .error _ :: _ => False

section

variable {M : Type} (bus : BusMessage M)

abbrev Sending (M : Type) := M × (Nat → Bool)

def publish (sendings : List (Sending M)) : Socket :=
  sendMessagesLoop (sendings.map fun s => (bus.wire s.1, s.2)) ⟨[], []⟩

def Whole (s : Sending M) : Prop := ∀ k < (bus.wire s.1).parts.length, s.2 k = false

instance (s : Sending M) : Decidable (Whole bus s) :=
  inferInstanceAs (Decidable (∀ k < (bus.wire s.1).parts.length, s.2 k = false))

def goneOut (fails : Nat → Bool) : Nat → List Part → List Part
  | _, [] => []
  | k, part :: rest => if fails k then [] else part :: goneOut fails (k + 1) rest

def sentParts (s : Sending M) : List Part := goneOut s.2 0 (bus.wire s.1).parts

/-- `parts` are a whole message and, before it, what went out of messages that were cut short. -/
def RunTogether (sendings : List (Sending M)) (parts : List Part) : Prop :=
  ∃ pre mid last post, sendings = pre ++ (mid ++ last :: post) ∧
    (∀ s, pre.getLast? = some s → Whole bus s) ∧ (∀ s ∈ mid, ¬ Whole bus s) ∧ Whole bus last ∧
    mid.flatMap (sentParts bus) ≠ [] ∧
    parts = mid.flatMap (sentParts bus) ++ (bus.wire last.1).parts

def Delivers (sendings : List (Sending M)) (results : List RecvResult) : Prop :=
  ((∀ s ∈ sendings, Whole bus s) →
    subscriberLoop bus results = sendings.map fun s => .ok s.1) ∧
  ∀ m, .ok m ∈ subscriberLoop bus results → m ∈ sendings.map Prod.fst

end

section

variable {fails : Nat → Bool} {parts : List Part}

theorem sendMessage_eq (fails : Nat → Bool) (wire : WireMessage) (sock : Socket) :
    sendMessage fails wire sock = sendFrames fails 0 wire.parts sock := rfl

theorem sendFrames_whole (k : Nat) (hne : parts ≠ [])
    (h : ∀ j < parts.length, fails (k + j) = false) (sock : Socket) :
    sendFrames fails k parts sock = ⟨[], sock.sent ++ [sock.pending ++ parts]⟩ := by
  induction parts generalizing k sock with
  | nil => exact absurd rfl hne
  | cons part rest ih =>
    have hhere : fails k = false := h 0 (by simp)
    cases rest with
    | nil => simp [sendFrames, hhere, Socket.send]
    | cons next rest =>
      have hthere : ∀ j < (next :: rest).length, fails (k + 1 + j) = false := by
        intro j hj
        have := h (j + 1) (by simpa using hj)
        rwa [show k + (j + 1) = k + 1 + j by omega] at this
      rw [sendFrames, hhere, ih (k + 1) (by simp) hthere]
      simp [Socket.send]

theorem sendFrames_cut (k : Nat) (h : ∃ j < parts.length, fails (k + j) = true) (sock : Socket) :
    sendFrames fails k parts sock = ⟨sock.pending ++ goneOut fails k parts, sock.sent⟩ := by
  induction parts generalizing k sock with
  | nil => simp at h
  | cons part rest ih =>
    by_cases hhere : fails k = true
    · simp [sendFrames, goneOut, hhere]
    · obtain ⟨j, hj, hfail⟩ := h
      have hpos : j ≠ 0 := by
        rintro rfl
        exact hhere hfail
      have hlong : rest ≠ [] := by
        rintro rfl
        simp at hj
        omega
      have hthere : ∃ i < rest.length, fails (k + 1 + i) = true := by
        refine ⟨j - 1, by simp at hj; omega, ?_⟩
        rwa [show k + 1 + (j - 1) = k + j by omega]
      rw [sendFrames, if_neg hhere, ih (k + 1) hthere, goneOut, if_neg hhere]
      simp [Socket.send, hlong]

end

section

variable {M : Type} (bus : BusMessage M) {s : Sending M} {sendings : List (Sending M)}
  {parts : List Part}

def joined : List Part → List (Sending M) → List (List Part)
  | _, [] => []
  | pending, s :: rest =>
    if Whole bus s then (pending ++ (bus.wire s.1).parts) :: joined [] rest
    else joined (pending ++ sentParts bus s) rest

theorem sendMessage_whole (h : Whole bus s) (sock : Socket) :
    sendMessage s.2 (bus.wire s.1) sock =
      ⟨[], sock.sent ++ [sock.pending ++ (bus.wire s.1).parts]⟩ := by
  rw [sendMessage_eq]
  exact sendFrames_whole 0 (by simp [WireMessage.parts])
    (fun j hj => by rw [Nat.zero_add]; exact h j hj) sock

theorem sendMessage_cut (h : ¬ Whole bus s) (sock : Socket) :
    sendMessage s.2 (bus.wire s.1) sock = ⟨sock.pending ++ sentParts bus s, sock.sent⟩ := by
  have hcut : ∃ j < (bus.wire s.1).parts.length, s.2 (0 + j) = true := by
    simpa [Whole] using h
  exact sendFrames_cut 0 hcut sock

theorem sendMessagesLoop_sent (sendings : List (Sending M)) (sock : Socket) :
    (sendMessagesLoop (sendings.map fun s => (bus.wire s.1, s.2)) sock).sent =
      sock.sent ++ joined bus sock.pending sendings := by
  induction sendings generalizing sock with
  | nil => simp [sendMessagesLoop, joined]
  | cons s rest ih =>
    rw [List.map_cons, sendMessagesLoop, ih, joined]
    by_cases h : Whole bus s
    · simp [sendMessage_whole bus h, h]
    · simp [sendMessage_cut bus h, h]

theorem publish_sent (sendings : List (Sending M)) :
    (publish bus sendings).sent = joined bus [] sendings := by
  rw [publish, sendMessagesLoop_sent]
  rfl

theorem joined_cut (pending : List Part) {mid : List (Sending M)} (h : ∀ s ∈ mid, ¬ Whole bus s)
    (rest : List (Sending M)) :
    joined bus pending (mid ++ rest) =
      joined bus (pending ++ mid.flatMap (sentParts bus)) rest := by
  induction mid generalizing pending with
  | nil => simp
  | cons s mid ih =>
    rw [List.cons_append, joined, if_neg (h s (by simp)), ih _ fun t ht => h t (by simp [ht])]
    simp

theorem joined_after_whole (pending : List Part) {pre : List (Sending M)} (hne : pre ≠ [])
    (h : ∀ s, pre.getLast? = some s → Whole bus s) (rest : List (Sending M)) :
    joined bus pending (pre ++ rest) = joined bus pending pre ++ joined bus [] rest := by
  induction pre generalizing pending with
  | nil => exact absurd rfl hne
  | cons s pre ih =>
    cases pre with
    | nil =>
      have hs : Whole bus s := h s rfl
      simp [joined, hs]
    | cons t pre =>
      have hlast : ∀ u, (t :: pre).getLast? = some u → Whole bus u := fun u hu =>
        h u (by rwa [List.getLast?_cons_cons])
      rw [List.cons_append, joined, joined]
      split_ifs with hs
      · rw [ih _ (by simp) hlast, List.cons_append]
      · rw [ih _ (by simp) hlast]

theorem mem_joined_of_runTogether (h : RunTogether bus sendings parts) :
    parts ∈ joined bus [] sendings := by
  obtain ⟨pre, mid, last, post, rfl, hpre, hmid, hlast, -, rfl⟩ := h
  have hrest : mid.flatMap (sentParts bus) ++ (bus.wire last.1).parts ∈
      joined bus [] (mid ++ last :: post) := by
    rw [joined_cut bus [] hmid, joined, if_pos hlast]
    simp
  cases pre with
  | nil => exact hrest
  | cons s pre =>
    rw [joined_after_whole bus [] (by simp) hpre]
    exact List.mem_append_right _ hrest

theorem split_of_mem_joined (pending : List Part) (h : parts ∈ joined bus pending sendings) :
    ∃ pre mid last post, sendings = pre ++ (mid ++ last :: post) ∧
      (∀ s, pre.getLast? = some s → Whole bus s) ∧ (∀ s ∈ mid, ¬ Whole bus s) ∧ Whole bus last ∧
      parts = (if pre = [] then pending else []) ++ mid.flatMap (sentParts bus) ++
        (bus.wire last.1).parts := by
  induction sendings generalizing pending with
  | nil => simp [joined] at h
  | cons s rest ih =>
    rw [joined] at h
    split_ifs at h with hs
    · rcases List.mem_cons.mp h with rfl | h
      · exact ⟨[], [], s, rest, rfl, by simp, by simp, hs, by simp⟩
      · grind
    · obtain ⟨pre, mid, last, post, rfl, hpre, hmid, hlast, hparts⟩ := ih _ h
      cases pre with
      | nil =>
        refine ⟨[], s :: mid, last, post, rfl, by simp, ?_, hlast, by simpa using hparts⟩
        intro t ht
        rcases List.mem_cons.mp ht with rfl | ht
        · exact hs
        · exact hmid t ht
      | cons t pre =>
        exact ⟨s :: t :: pre, mid, last, post, rfl, by simpa [List.getLast?_cons_cons] using hpre,
          hmid, hlast, by simpa using hparts⟩

theorem mem_joined (h : parts ∈ joined bus [] sendings) :
    (∃ s ∈ sendings, parts = (bus.wire s.1).parts) ∨ RunTogether bus sendings parts := by
  obtain ⟨pre, mid, last, post, rfl, hpre, hmid, hlast, hparts⟩ := split_of_mem_joined bus [] h
  simp only [ite_self, List.nil_append] at hparts
  by_cases hempty : mid.flatMap (sentParts bus) = []
  · rw [hempty] at hparts
    exact .inl ⟨last, by simp, hparts⟩
  · exact .inr ⟨pre, mid, last, post, rfl, hpre, hmid, hlast, hempty, hparts⟩

theorem joined_of_whole (h : ∀ s ∈ sendings, Whole bus s) :
    joined bus [] sendings = sendings.map fun s => (bus.wire s.1).parts := by
  induction sendings with
  | nil => rfl
  | cons s rest ih =>
    rw [joined, if_pos (h s (by simp)), ih fun t ht => h t (by simp [ht]), List.map_cons,
      List.nil_append]

end

section

variable {M : Type} (bus : BusMessage M) {sendings : List (Sending M)} {results : List RecvResult}
  {sent : List (List Part)}

theorem subscriberLoop_eq (h : Arrives sent results) :
    subscriberLoop bus results =
      sent.flatMap fun parts => (handleRecvResult bus (.parts parts)).1 := by
  induction results generalizing sent with
  | nil =>
    rw [h]
    rfl
  | cons result rest ih =>
    cases result with
    | parts parts =>
      obtain ⟨hhead, hrest⟩ := h
      obtain ⟨tail, rfl⟩ := List.head?_eq_some_iff.mp hhead
      have hgo : (handleRecvResult bus (.parts parts)).2 = true := by
        rcases parts with _ | ⟨_, _ | ⟨_, _⟩⟩ <;> rfl
      rw [subscriberLoop, hgo, if_pos rfl, ih hrest, List.tail_cons, List.flatMap_cons]
    | eagain =>
      rw [← ih h]
      rfl
    | eterm => exact h.elim
    | error e => exact h.elim

theorem handleRecvResult_wire (m : M) :
    (handleRecvResult bus (.parts (bus.wire m).parts)).1 =
      if bus.toFrames m = [] then [] else [.ok m] := by
  have hread := bus.fromFrames_toFrames m
  rw [WireMessage.parts, BusMessage.wire]
  cases hframes : bus.toFrames m with
  | nil => rfl
  | cons frame frames =>
    rw [hframes] at hread
    simp [handleRecvResult, hread]

theorem mem_handleRecvResult {parts : List Part} {m : M}
    (h : .ok m ∈ (handleRecvResult bus (.parts parts)).1) :
    ∃ topic frames, parts = topic :: frames ∧ bus.fromFrames topic frames = .ok m := by
  rcases parts with _ | ⟨topic, _ | ⟨frame, frames⟩⟩
  · simp [handleRecvResult] at h
  · simp [handleRecvResult] at h
  · exact ⟨topic, frame :: frames, rfl, (List.mem_singleton.mp h).symm⟩

theorem subscriberLoop_of_whole (h : Arrives (publish bus sendings).sent results)
    (hwhole : ∀ s ∈ sendings, Whole bus s) :
    subscriberLoop bus results =
      (sendings.filter fun s => bus.toFrames s.1 ≠ []).map fun s => .ok s.1 := by
  rw [subscriberLoop_eq bus h, publish_sent, joined_of_whole bus hwhole, List.flatMap_map]
  clear h hwhole
  induction sendings with
  | nil => rfl
  | cons s rest ih =>
    rw [List.flatMap_cons, ih, handleRecvResult_wire]
    by_cases hframes : bus.toFrames s.1 = []
    · simp [hframes]
    · simp [hframes]

theorem whole_list_iff (h : Arrives (publish bus sendings).sent results) :
    ((∀ s ∈ sendings, Whole bus s) →
      subscriberLoop bus results = sendings.map fun s => .ok s.1) ↔
    ((∀ s ∈ sendings, Whole bus s) → ∀ s ∈ sendings, bus.toFrames s.1 ≠ []) := by
  refine imp_congr_right fun hwhole => ?_
  rw [subscriberLoop_of_whole bus h hwhole]
  constructor
  · intro heq s hs
    have hlength := congrArg List.length heq
    rw [List.length_map, List.length_map, List.length_filter_eq_length_iff] at hlength
    simpa using hlength s hs
  · intro hframes
    rw [List.filter_eq_self.mpr fun s hs => by simpa using hframes s hs]

theorem none_made_up_iff (h : Arrives (publish bus sendings).sent results) :
    (∀ m, .ok m ∈ subscriberLoop bus results → m ∈ sendings.map Prod.fst) ↔
    ∀ topic frames, RunTogether bus sendings (topic :: frames) →
      ∀ m, bus.fromFrames topic frames = .ok m → m ∈ sendings.map Prod.fst := by
  rw [subscriberLoop_eq bus h, publish_sent]
  constructor
  · intro hpublished topic frames htogether m hread
    apply hpublished m
    obtain ⟨frame, rest, hframes⟩ : ∃ frame rest, frames = frame :: rest := by
      obtain ⟨pre, mid, last, post, -, -, -, -, hne, hparts⟩ := htogether
      obtain ⟨part, others, hmid⟩ := List.exists_cons_of_ne_nil hne
      rw [hmid] at hparts
      cases others with
      | nil => exact ⟨_, _, (List.cons.inj hparts).2⟩
      | cons other others => exact ⟨_, _, (List.cons.inj hparts).2⟩
    subst hframes
    refine List.mem_flatMap.mpr ⟨_, mem_joined_of_runTogether bus htogether, ?_⟩
    simp [handleRecvResult, hread]
  · intro hrefused m hm
    obtain ⟨parts, hparts, hm⟩ := List.mem_flatMap.mp hm
    obtain ⟨topic, frames, rfl, hread⟩ := mem_handleRecvResult bus hm
    rcases mem_joined bus hparts with ⟨s, hs, hwire⟩ | htogether
    · simp only [WireMessage.parts, BusMessage.wire, List.cons.injEq] at hwire
      rw [hwire.1, hwire.2, bus.fromFrames_toFrames] at hread
      cases hread
      exact List.mem_map_of_mem hs
    · exact hrefused topic frames htogether m hread

theorem delivers_iff (h : Arrives (publish bus sendings).sent results) :
    Delivers bus sendings results ↔
      ((∀ s ∈ sendings, Whole bus s) → ∀ s ∈ sendings, bus.toFrames s.1 ≠ []) ∧
      ∀ topic frames, RunTogether bus sendings (topic :: frames) →
        ∀ m, bus.fromFrames topic frames = .ok m → m ∈ sendings.map Prod.fst :=
  and_congr (whole_list_iff bus h) (none_made_up_iff bus h)

end

def nullBus : BusMessage Unit where
  topic _ := []
  toFrames _ := []
  fromFrames _ _ := .ok ()
  fromFrames_toFrames _ := rfl

def rawBus : BusMessage (Part × List Part) where
  topic := Prod.fst
  toFrames := Prod.snd
  fromFrames topic frames := .ok (topic, frames)
  fromFrames_toFrames _ := rfl

theorem delivers_raw :
    Delivers rawBus [(([1], [[2]]), fun _ => false)] [.eagain, .parts [[1], [2]]] := by
  have harrives : Arrives (publish rawBus [(([1], [[2]]), fun _ => false)]).sent
      [.eagain, .parts [[1], [2]]] := ⟨rfl, rfl⟩
  refine (delivers_iff rawBus harrives).mpr ⟨by simp [rawBus], ?_⟩
  rintro topic frames ⟨pre, mid, last, post, hsplit, -, hmid, -, hne, -⟩
  cases mid with
  | nil => exact absurd rfl hne
  | cons s mid =>
    have hs : s ∈ [((([1], [[2]]), fun _ => false) : Sending (Part × List Part))] := by
      rw [hsplit]
      simp
    rw [List.mem_singleton] at hs
    exact absurd (fun k _ => by rw [hs]) (hmid s (by simp))

theorem null_lost_and_cut_joined :
    (Arrives (publish nullBus [((), fun _ => false)]).sent [.parts [[]]] ∧
      ¬ Delivers nullBus [((), fun _ => false)] [.parts [[]]]) ∧
    Arrives (publish rawBus
      [(([1], [[2], [3]]), fun k => k == 2), (([4], [[5]]), fun _ => false)]).sent
      [.parts [[1], [2], [4], [5]]] ∧
    ¬ Delivers rawBus [(([1], [[2], [3]]), fun k => k == 2), (([4], [[5]]), fun _ => false)]
      [.parts [[1], [2], [4], [5]]] := by
  refine ⟨⟨⟨rfl, rfl⟩, fun h => ?_⟩, ⟨rfl, rfl⟩, fun h => ?_⟩
  · have hlist := h.1 (by simp [Whole])
    cases hlist
  · have hmade := h.2 ([1], [[2], [4], [5]]) (by simp [subscriberLoop, handleRecvResult, rawBus])
    revert hmade
    decide

end SwissArmyHammer.Leader
