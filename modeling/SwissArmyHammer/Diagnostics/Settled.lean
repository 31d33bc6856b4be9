import SwissArmyHammer.Common.Traces
import SwissArmyHammer.Diagnostics.Diagnose

/-! A settle call among the clones of a session that store diagnostics. A store replaces the cached
set and then sends it on a ring that forgets its oldest updates. -/

namespace SwissArmyHammer.Diagnostics

open Lsp

abbrev Update := String × List Diagnostic

inductive Source
  | publish (params : Json)
  | pull (path : String) (response : Json)

/-- `handle_publish_diagnostics` and `pull_diagnostics`: what is stored, if anything is. -/
def Source.update : Source → Option Update
  | .publish params =>
    ((params.getKey "uri").bind Json.asStr).map fun uri => (uri, parsePublishDiagnostics params)
  | .pull path response =>
    if pullResponseIsNotReady response then none
    else some (fileUri path, parseDiagnosticsFromResult ((response.getKey "result").getD response))

inductive Phase
  | idle
  | reading (todo : List String)
  | waiting
  | checked
  | settled (records : List DiagnosticRecord)
  | pending

structure Watch where
  phase : Phase
  state : String → List Diagnostic
  next : Nat
  debounce : Nat
  hard : Option Nat

/-- `storing` are the stores between their two steps, in the order of the first; `sent` are the
updates that were broadcast and when. -/
structure Hub where
  session : Session
  storing : List Update
  sent : List (Update × Nat)
  now : Nat
  closed : Bool
  watch : Watch

inductive Event
  | tick (t : Nat)
  | replace (source : Source)
  | send (i : Nat)
  | close
  | subscribe
  | read
  | startTimers
  | receive
  | lag
  | receiveNothing
  | keepWaiting
  | debounceFires
  | channelClosed
  | hardFires

def watched (uris : List String) : List String := (uris.insertionSort (· ≤ ·)).dedup

namespace Hub

variable (uris : List String) (config : DiagnosticsConfig) (capacity : Nat) (hub : Hub)

def start (session : Session) : Hub :=
  ⟨session, [], [], 0, false, ⟨.idle, fun _ => [], 0, 0, none⟩⟩

def records : List DiagnosticRecord :=
  buildRecords config ((watched uris).map fun uri => (uri, hub.watch.state uri))
    (some config.perReportCap)

def oldest : Nat := hub.sent.length - capacity

def Step : Event → Hub → Prop
  | .tick t, hub' => hub.now ≤ t ∧ hub' = { hub with now := t }
  | .replace source, hub' => hub.closed = false ∧ ∃ update, source.update = some update ∧
    hub' = { hub with
      session := hub.session.store update.1 update.2
      storing := hub.storing ++ [update] }
  | .send i, hub' => ∃ before update after, hub.storing = before ++ update :: after ∧
    before.length = i ∧
    hub' = { hub with storing := before ++ after, sent := hub.sent ++ [(update, hub.now)] }
  | .close, hub' => hub.storing = [] ∧ hub' = { hub with closed := true }
  | .subscribe, hub' => hub.watch.phase = .idle ∧
    hub' = { hub with watch := { hub.watch with
      phase := .reading (watched uris)
      next := hub.sent.length } }
  | .read, hub' => ∃ uri todo, hub.watch.phase = .reading (uri :: todo) ∧
    hub' = { hub with watch := { hub.watch with
      phase := .reading todo
      state := Function.update hub.watch.state uri (hub.session.diagnosticsFor uri) } }
  | .startTimers, hub' => hub.watch.phase = .reading [] ∧
    hub' = { hub with watch := { hub.watch with
      phase := if uris = [] then .settled (hub.records uris config) else .waiting
      debounce := hub.now + config.settleWindow
      hard := some (hub.watch.hard.getD (hub.now + config.settleHardTimeout)) } }
  | .receive, hub' => hub.watch.phase = .waiting ∧ hub.oldest capacity ≤ hub.watch.next ∧
    ∃ update time, hub.sent[hub.watch.next]? = some (update, time) ∧
      hub' = { hub with watch :=
        if update.1 ∈ uris then { hub.watch with
          next := hub.watch.next + 1
          state := Function.update hub.watch.state update.1 update.2
          debounce := hub.now + config.settleWindow }
        else { hub.watch with next := hub.watch.next + 1 } }
  | .lag, hub' => hub.watch.phase = .waiting ∧ hub.watch.next < hub.oldest capacity ∧
    hub' = { hub with watch := { hub.watch with
      phase := .reading (watched uris)
      next := hub.oldest capacity } }
  | .receiveNothing, hub' => hub.watch.phase = .waiting ∧ hub.watch.next = hub.sent.length ∧
    hub.closed = false ∧ hub' = { hub with watch := { hub.watch with phase := .checked } }
  | .keepWaiting, hub' => hub.watch.phase = .checked ∧ hub.now < hub.watch.debounce ∧
    hub' = { hub with watch := { hub.watch with phase := .waiting } }
  | .debounceFires, hub' => hub.watch.phase = .checked ∧ hub.watch.debounce ≤ hub.now ∧
    hub' = { hub with watch := { hub.watch with phase := .settled (hub.records uris config) } }
  | .channelClosed, hub' => hub.watch.phase = .waiting ∧ hub.watch.next = hub.sent.length ∧
    hub.closed = true ∧
    hub' = { hub with watch := { hub.watch with phase := .settled (hub.records uris config) } }
  | .hardFires, hub' => hub.watch.phase = .waiting ∧
    (∃ deadline, hub.watch.hard = some deadline ∧ deadline ≤ hub.now) ∧
    hub' = { hub with watch := { hub.watch with phase := .pending } }

def InLockstep : Prop :=
  hub.storing = [] → ∀ uri diagnostics, latest uri (hub.sent.map Prod.fst) = some diagnostics →
    hub.session.diagnosticsFor uri = diagnostics

def cachedRecords : List DiagnosticRecord :=
  ((watched uris).flatMap fun uri =>
    recordsOf config (filePathFromUri uri) (hub.session.diagnosticsFor uri)).take config.perReportCap

/-- What a settle call returns while no store is in progress is the latest word, after a quiet
window. -/
def LatestWord (hub' : Hub) : Prop :=
  ∀ records, (∀ r, hub.watch.phase ≠ .settled r) → hub'.watch.phase = .settled records →
    hub'.storing = [] → records = hub'.cachedRecords uris config ∧
      (hub'.closed = true ∨ ∀ update time, (update, time) ∈ hub'.sent → update.1 ∈ uris →
        time + config.settleWindow ≤ hub'.now)

/-- The stores of a uri are sent in the order in which they are cached, and none of a watched uri
between a look at the channel that finds nothing and the look at the debounce. -/
def InOrder : Event → Prop
  | .send i => ∀ update, hub.storing[i]? = some update →
    (∀ earlier ∈ hub.storing.take i, earlier.1 ≠ update.1) ∧
      (hub.watch.phase = .checked → update.1 ∉ uris)
  | _ => True

end Hub

end SwissArmyHammer.Diagnostics

/-! What a settle call returns is the latest word, where the stores are sent in order. -/

namespace SwissArmyHammer.Diagnostics.Hub

open Lsp

variable {uris : List String} {config : DiagnosticsConfig} {capacity : Nat} {hub hub' : Hub}
  {event : Event} {steps : List (Event × Hub)}

def log (hub : Hub) : List Update := hub.sent.map Prod.fst ++ hub.storing

def unread (hub : Hub) : List Update :=
  (hub.sent.drop hub.watch.next).map Prod.fst ++ hub.storing

def HasRead (hub : Hub) (uri : String) : Prop :=
  match hub.watch.phase with
  | .reading todo => uri ∉ todo
  | .waiting | .checked => True
  | .idle | .settled _ | .pending => False

def Looping (hub : Hub) : Prop := hub.watch.phase = .waiting ∨ hub.watch.phase = .checked

structure Inv (uris : List String) (config : DiagnosticsConfig) (hub : Hub) : Prop where
  last : ∀ uri diagnostics, latest uri hub.log = some diagnostics →
    hub.session.diagnosticsFor uri = diagnostics
  next : hub.watch.next ≤ hub.sent.length
  past : ∀ x ∈ hub.sent, x.2 ≤ hub.now
  known : ∀ uri ∈ uris, hub.HasRead uri → latest uri hub.unread = none →
    hub.watch.state uri = hub.session.diagnosticsFor uri
  quiet : hub.Looping → ∀ x ∈ hub.sent.take hub.watch.next, x.1.1 ∈ uris →
    x.2 + config.settleWindow ≤ hub.watch.debounce
  checked : hub.watch.phase = .checked → ∀ x ∈ hub.sent.drop hub.watch.next, x.1.1 ∉ uris
  closed : hub.closed = true → hub.storing = []

theorem mem_watched {uri : String} : uri ∈ watched uris ↔ uri ∈ uris := by
  rw [watched, List.mem_dedup, List.mem_insertionSort]

theorem inv_start (session : Session) : Inv uris config (start session) where
  last _ _ h := by cases h
  next := Nat.le_refl 0
  past _ hx := absurd hx List.not_mem_nil
  known _ _ hread := hread.elim
  quiet hloop := by
    rcases hloop with hloop | hloop
    · cases hloop
    · cases hloop
  checked h := by cases h
  closed _ := rfl

theorem Inv.tick {t : Nat} (hinv : Inv uris config hub) (ht : hub.now ≤ t) :
    Inv uris config { hub with now := t } where
  last := hinv.last
  next := hinv.next
  past x hx := (hinv.past x hx).trans ht
  known := hinv.known
  quiet := hinv.quiet
  checked := hinv.checked
  closed := hinv.closed

theorem Inv.replace (update : Update) (hinv : Inv uris config hub) (hopen : hub.closed = false) :
    Inv uris config { hub with
      session := hub.session.store update.1 update.2
      storing := hub.storing ++ [update] } where
  last uri diagnostics h := by
    rw [log, ← List.append_assoc, latest_append, latest_singleton] at h
    rw [Session.diagnosticsFor_store]
    by_cases huri : update.1 = uri
    · simp only [huri, if_true, Option.some_or, Option.some.injEq] at h
      rw [if_pos huri.symm, h]
    · rw [if_neg huri] at h
      rw [if_neg fun heq => huri heq.symm]
      exact hinv.last uri diagnostics h
  next := hinv.next
  past := hinv.past
  known uri huri hread h := by
    rw [unread, ← List.append_assoc, latest_append, latest_singleton] at h
    by_cases heq : update.1 = uri
    · simp [heq] at h
    · rw [if_neg heq] at h
      have hknown := hinv.known uri huri hread h
      rw [Session.diagnosticsFor_store, if_neg fun h => heq h.symm]
      exact hknown
  quiet := hinv.quiet
  checked := hinv.checked
  closed h := by
    rw [hopen] at h
    cases h

theorem Inv.send {before after : List Update} {update : Update} (hinv : Inv uris config hub)
    (hstoring : hub.storing = before ++ update :: after)
    (hfirst : ∀ earlier ∈ before, earlier.1 ≠ update.1)
    (hlate : hub.watch.phase = .checked → update.1 ∉ uris) :
    Inv uris config { hub with
      storing := before ++ after
      sent := hub.sent ++ [(update, hub.now)] } := by
  have hsame : ∀ uri, latest uri (update :: (before ++ after)) = latest uri hub.storing := by
    intro uri
    rw [hstoring]
    exact latest_move hfirst uri after
  have hdrop : (hub.sent ++ [(update, hub.now)]).drop hub.watch.next =
      hub.sent.drop hub.watch.next ++ [(update, hub.now)] :=
    List.drop_append_of_le_length hinv.next
  have htake : (hub.sent ++ [(update, hub.now)]).take hub.watch.next =
      hub.sent.take hub.watch.next := List.take_append_of_le_length hinv.next
  constructor
  · intro uri diagnostics h
    refine hinv.last uri diagnostics ?_
    rw [log, latest_append, ← hsame uri, ← latest_append, ← h, log]
    simp
  · have hnext := hinv.next
    have hlength : (hub.sent ++ [(update, hub.now)]).length = hub.sent.length + 1 := by simp
    dsimp only
    omega
  · intro x hx
    rcases List.mem_append.mp hx with hx | hx
    · exact hinv.past x hx
    · obtain rfl := List.mem_singleton.mp hx
      exact Nat.le_refl _
  · intro uri huri hread h
    refine hinv.known uri huri hread ?_
    rw [unread, latest_append, ← hsame uri, ← latest_append, ← h, unread]
    simp [hdrop]
  · intro hloop x hx
    rw [htake] at hx
    exact hinv.quiet hloop x hx
  · intro hchecked x hx
    rw [hdrop] at hx
    rcases List.mem_append.mp hx with hx | hx
    · exact hinv.checked hchecked x hx
    · obtain rfl := List.mem_singleton.mp hx
      exact hlate hchecked
  · intro hclosed
    have hnil := hinv.closed hclosed
    rw [hstoring] at hnil
    simp at hnil

theorem Inv.close (hinv : Inv uris config hub) (hstoring : hub.storing = []) :
    Inv uris config { hub with closed := true } where
  last := hinv.last
  next := hinv.next
  past := hinv.past
  known := hinv.known
  quiet := hinv.quiet
  checked := hinv.checked
  closed _ := hstoring

theorem Inv.watch {watch : Watch} (hinv : Inv uris config hub)
    (hnext : watch.next ≤ hub.sent.length)
    (hknown : ∀ uri ∈ uris, HasRead { hub with watch := watch } uri →
      latest uri (unread { hub with watch := watch }) = none →
      watch.state uri = hub.session.diagnosticsFor uri)
    (hquiet : Looping { hub with watch := watch } → ∀ x ∈ hub.sent.take watch.next, x.1.1 ∈ uris →
      x.2 + config.settleWindow ≤ watch.debounce)
    (hchecked : watch.phase = .checked → ∀ x ∈ hub.sent.drop watch.next, x.1.1 ∉ uris) :
    Inv uris config { hub with watch := watch } where
  last := hinv.last
  next := hnext
  past := hinv.past
  known := hknown
  quiet := hquiet
  checked := hchecked
  closed := hinv.closed

theorem Inv.reread {next : Nat} (hinv : Inv uris config hub) (hnext : next ≤ hub.sent.length) :
    Inv uris config { hub with watch := { hub.watch with
      phase := .reading (watched uris)
      next := next } } := by
  apply hinv.watch
  · exact hnext
  · intro uri huri hread
    exact absurd (mem_watched.mpr huri) hread
  · intro hloop
    rcases hloop with hloop | hloop
    · cases hloop
    · cases hloop
  · intro h
    cases h

theorem Inv.read {uri : String} {todo : List String} (hinv : Inv uris config hub)
    (hphase : hub.watch.phase = .reading (uri :: todo)) :
    Inv uris config { hub with watch := { hub.watch with
      phase := .reading todo
      state := Function.update hub.watch.state uri (hub.session.diagnosticsFor uri) } } := by
  apply hinv.watch
  · exact hinv.next
  · intro other hother hread hnone
    by_cases heq : other = uri
    · subst heq
      exact Function.update_self ..
    · dsimp only
      rw [Function.update_of_ne heq]
      refine hinv.known other hother ?_ hnone
      rw [HasRead, hphase]
      simpa [HasRead, heq] using hread
  · intro hloop
    rcases hloop with hloop | hloop
    · cases hloop
    · cases hloop
  · intro h
    cases h

theorem Inv.startTimers {hard : Option Nat} (hinv : Inv uris config hub)
    (hphase : hub.watch.phase = .reading []) :
    Inv uris config { hub with watch := { hub.watch with
      phase := if uris = [] then .settled (hub.records uris config) else .waiting
      debounce := hub.now + config.settleWindow
      hard := hard } } := by
  apply hinv.watch
  · exact hinv.next
  · intro uri huri hread hnone
    refine hinv.known uri huri ?_ hnone
    rw [HasRead, hphase]
    exact List.not_mem_nil
  · intro hloop x hx huri
    have hpast := hinv.past x (List.mem_of_mem_take hx)
    dsimp only
    omega
  · intro h
    split at h
    · cases h
    · cases h

theorem Inv.receive {update : Update} {time : Nat} (hinv : Inv uris config hub)
    (hphase : hub.watch.phase = .waiting)
    (hget : hub.sent[hub.watch.next]? = some (update, time)) :
    Inv uris config { hub with watch :=
      if update.1 ∈ uris then { hub.watch with
        next := hub.watch.next + 1
        state := Function.update hub.watch.state update.1 update.2
        debounce := hub.now + config.settleWindow }
      else { hub.watch with next := hub.watch.next + 1 } } := by
  obtain ⟨hlt, hval⟩ := List.getElem?_eq_some_iff.mp hget
  have hdrop : hub.sent.drop hub.watch.next =
      (update, time) :: hub.sent.drop (hub.watch.next + 1) := by
    rw [← hval]
    exact List.drop_eq_getElem_cons hlt
  have hunread : hub.unread = [update] ++
      ((hub.sent.drop (hub.watch.next + 1)).map Prod.fst ++ hub.storing) := by
    rw [unread, hdrop]
    rfl
  have htake : hub.sent.take (hub.watch.next + 1) =
      hub.sent.take hub.watch.next ++ [(update, time)] := by
    rw [← hval]
    exact (List.take_append_getElem hlt).symm
  have hread : ∀ uri, hub.HasRead uri := by
    intro uri
    rw [HasRead, hphase]
    trivial
  -- the set that is received is the cached one, unless a later one is on its way
  have hlast : latest update.1
      ((hub.sent.drop (hub.watch.next + 1)).map Prod.fst ++ hub.storing) = none →
      update.2 = hub.session.diagnosticsFor update.1 := by
    intro hnone
    refine (hinv.last _ _ ?_).symm
    have hlog : hub.log = (hub.sent.take hub.watch.next).map Prod.fst ++ hub.unread := by
      rw [log, unread, ← List.append_assoc, ← List.map_append, List.take_append_drop]
    rw [hlog, latest_append, hunread, latest_append, hnone, Option.none_or, latest_singleton,
      if_pos rfl, Option.some_or]
  have hother : ∀ uri ∈ uris, uri ≠ update.1 → latest uri
      ((hub.sent.drop (hub.watch.next + 1)).map Prod.fst ++ hub.storing) = none →
      hub.watch.state uri = hub.session.diagnosticsFor uri := by
    intro uri huri hne hnone
    refine hinv.known uri huri (hread uri) ?_
    rw [hunread, latest_append, hnone, Option.none_or, latest_singleton,
      if_neg fun h => hne h.symm]
  split
  · apply hinv.watch
    · exact hlt
    · intro uri huri _ hnone
      by_cases heq : uri = update.1
      · subst heq
        exact (Function.update_self ..).trans (hlast hnone)
      · exact (Function.update_of_ne heq ..).trans (hother uri huri heq hnone)
    · intro _ x hx _
      have hpast := hinv.past x (List.mem_of_mem_take hx)
      dsimp only
      omega
    · intro h
      rw [hphase] at h
      cases h
  · rename_i hnot
    apply hinv.watch
    · exact hlt
    · intro uri huri _ hnone
      have hne : uri ≠ update.1 := fun h => hnot (h ▸ huri)
      exact hother uri huri hne hnone
    · intro hloop x hx huri
      rw [htake] at hx
      rcases List.mem_append.mp hx with hx | hx
      · exact hinv.quiet hloop x hx huri
      · obtain rfl := List.mem_singleton.mp hx
        exact absurd huri hnot
    · intro h
      rw [hphase] at h
      cases h

theorem Inv.receiveNothing (hinv : Inv uris config hub) (hphase : hub.watch.phase = .waiting)
    (hnext : hub.watch.next = hub.sent.length) :
    Inv uris config { hub with watch := { hub.watch with phase := .checked } } := by
  apply hinv.watch
  · exact hinv.next
  · intro uri huri _ hnone
    refine hinv.known uri huri ?_ hnone
    rw [HasRead, hphase]
    trivial
  · intro _
    exact hinv.quiet (.inl hphase)
  · intro _ x hx
    rw [hnext, List.drop_length] at hx
    exact absurd hx List.not_mem_nil

theorem Inv.keepWaiting (hinv : Inv uris config hub) (hphase : hub.watch.phase = .checked) :
    Inv uris config { hub with watch := { hub.watch with phase := .waiting } } := by
  apply hinv.watch
  · exact hinv.next
  · intro uri huri _ hnone
    refine hinv.known uri huri ?_ hnone
    rw [HasRead, hphase]
    trivial
  · intro _
    exact hinv.quiet (.inr hphase)
  · intro h
    cases h

theorem Inv.stop {phase : Phase} (hinv : Inv uris config hub)
    (hphase : phase = .pending ∨ ∃ records, phase = .settled records) :
    Inv uris config { hub with watch := { hub.watch with phase := phase } } := by
  apply hinv.watch
  · exact hinv.next
  · intro uri huri hread
    rcases hphase with rfl | ⟨records, rfl⟩
    · exact hread.elim
    · exact hread.elim
  · intro hloop
    rcases hphase with rfl | ⟨records, rfl⟩
    · rcases hloop with hloop | hloop
      · cases hloop
      · cases hloop
    · rcases hloop with hloop | hloop
      · cases hloop
      · cases hloop
  · grind

theorem Inv.step (hinv : Inv uris config hub) (hmeets : hub.InOrder uris event)
    (hstep : hub.Step uris config capacity event hub') : Inv uris config hub' := by
  cases event with
  | tick t =>
    obtain ⟨ht, rfl⟩ := hstep
    exact hinv.tick ht
  | replace source =>
    obtain ⟨hopen, update, -, rfl⟩ := hstep
    exact hinv.replace update hopen
  | send i =>
    obtain ⟨before, update, after, hstoring, rfl, rfl⟩ := hstep
    have hget : hub.storing[before.length]? = some update := by
      rw [hstoring]
      simp
    obtain ⟨hfirst, hlate⟩ := hmeets update hget
    rw [hstoring, List.take_left] at hfirst
    exact hinv.send hstoring hfirst hlate
  | close =>
    obtain ⟨hstoring, rfl⟩ := hstep
    exact hinv.close hstoring
  | subscribe =>
    obtain ⟨-, rfl⟩ := hstep
    exact hinv.reread (Nat.le_refl _)
  | read =>
    obtain ⟨uri, todo, hphase, rfl⟩ := hstep
    exact hinv.read hphase
  | startTimers =>
    obtain ⟨hphase, rfl⟩ := hstep
    exact hinv.startTimers hphase
  | receive =>
    obtain ⟨hphase, -, update, time, hget, rfl⟩ := hstep
    exact hinv.receive hphase hget
  | lag =>
    obtain ⟨-, -, rfl⟩ := hstep
    exact hinv.reread (Nat.sub_le _ _)
  | receiveNothing =>
    obtain ⟨hphase, hnext, -, rfl⟩ := hstep
    exact hinv.receiveNothing hphase hnext
  | keepWaiting =>
    obtain ⟨hphase, -, rfl⟩ := hstep
    exact hinv.keepWaiting hphase
  | debounceFires =>
    obtain ⟨-, -, rfl⟩ := hstep
    exact hinv.stop (.inr ⟨_, rfl⟩)
  | channelClosed =>
    obtain ⟨-, -, -, rfl⟩ := hstep
    exact hinv.stop (.inr ⟨_, rfl⟩)
  | hardFires =>
    obtain ⟨-, -, rfl⟩ := hstep
    exact hinv.stop (.inl rfl)

theorem Inv.inLockstep (hinv : Inv uris config hub) : hub.InLockstep := by
  intro hstoring uri diagnostics h
  refine hinv.last uri diagnostics ?_
  rw [log, hstoring, List.append_nil]
  exact h

theorem Inv.records_eq (hinv : Inv uris config hub) (hcap : 0 < config.perReportCap)
    (hloop : hub.Looping) (hstoring : hub.storing = [])
    (hnone : ∀ x ∈ hub.sent.drop hub.watch.next, x.1.1 ∉ uris) :
    hub.records uris config = hub.cachedRecords uris config := by
  have hcut : max config.perReportCap 1 = config.perReportCap := by omega
  have hread : ∀ uri, hub.HasRead uri := by
    intro uri
    rcases hloop with hphase | hphase
    · rw [HasRead, hphase]
      trivial
    · rw [HasRead, hphase]
      trivial
  rw [records, buildRecords, List.flatMap_map]
  congr 1
  refine List.flatMap_congr fun uri huri => ?_
  have hmem := mem_watched.mp huri
  rw [hinv.known uri hmem (hread uri)]
  rw [latest_eq_none_iff, unread, hstoring, List.append_nil]
  intro x hx
  obtain ⟨y, hy, rfl⟩ := List.mem_map.mp hx
  exact fun heq => hnone y hy (heq ▸ hmem)

theorem Inv.latestWord (hinv : Inv uris config hub) (hcap : 0 < config.perReportCap)
    (hstep : hub.Step uris config capacity event hub') : hub.LatestWord uris config hub' := by
  intro records hbefore hafter hstoring
  cases event with
  | tick t =>
    obtain ⟨-, rfl⟩ := hstep
    exact absurd hafter (hbefore records)
  | replace source =>
    obtain ⟨-, update, -, rfl⟩ := hstep
    exact absurd hafter (hbefore records)
  | send i =>
    obtain ⟨before, update, after, -, -, rfl⟩ := hstep
    exact absurd hafter (hbefore records)
  | close =>
    obtain ⟨-, rfl⟩ := hstep
    exact absurd hafter (hbefore records)
  | subscribe =>
    obtain ⟨-, rfl⟩ := hstep
    cases hafter
  | read =>
    obtain ⟨uri, todo, -, rfl⟩ := hstep
    cases hafter
  | startTimers =>
    obtain ⟨-, rfl⟩ := hstep
    split at hafter
    · rename_i hnil
      obtain rfl := Phase.settled.inj hafter
      subst hnil
      simp [records, cachedRecords, buildRecords, watched]
    · cases hafter
  | receive =>
    obtain ⟨hphase, -, update, time, -, rfl⟩ := hstep
    split at hafter
    · exact absurd hafter (hbefore records)
    · exact absurd hafter (hbefore records)
  | lag =>
    obtain ⟨-, -, rfl⟩ := hstep
    cases hafter
  | receiveNothing =>
    obtain ⟨-, -, -, rfl⟩ := hstep
    cases hafter
  | keepWaiting =>
    obtain ⟨-, -, rfl⟩ := hstep
    cases hafter
  | debounceFires =>
    obtain ⟨hphase, hfires, rfl⟩ := hstep
    obtain rfl := Phase.settled.inj hafter
    refine ⟨hinv.records_eq hcap (.inr hphase) hstoring (hinv.checked hphase), .inr ?_⟩
    intro update time hmem huri
    rw [← List.take_append_drop hub.watch.next hub.sent] at hmem
    rcases List.mem_append.mp hmem with hx | hx
    · exact (hinv.quiet (.inr hphase) _ hx huri).trans hfires
    · exact absurd huri (hinv.checked hphase _ hx)
  | channelClosed =>
    obtain ⟨hphase, hnext, hclosed, rfl⟩ := hstep
    obtain rfl := Phase.settled.inj hafter
    refine ⟨hinv.records_eq hcap (.inl hphase) hstoring fun x hx => ?_, .inl hclosed⟩
    rw [hnext, List.drop_length] at hx
    exact absurd hx List.not_mem_nil
  | hardFires =>
    obtain ⟨-, -, rfl⟩ := hstep
    cases hafter

/-- Where each uri's stores are sent in the order they were cached in, the last update of a uri is
its cached set, and a settle call that returns has the latest word. -/
theorem settled_is_latest (session : Session) (hcap : 0 < config.perReportCap)
    (h : Trace (Step uris config capacity) (start session) steps)
    (hmeets : Trace.Every (fun hub event _ => hub.InOrder uris event) (start session) steps) :
    Trace.Every (fun hub _ hub' => hub'.InLockstep ∧ hub.LatestWord uris config hub')
      (start session) steps := by
  refine Trace.every_of_invariant (I := Inv uris config) ?_ h (inv_start session) hmeets
  intro hub event hub' hinv hmeets hstep
  have hinv' := hinv.step hmeets hstep
  exact ⟨hinv', hinv'.inLockstep, hinv.latestWord hcap hstep⟩

def publishOf (diagnostics : List Json) : Source :=
  .publish (.object [("diagnostics", .array diagnostics), ("uri", .string "file:///a.rs")])

def brokenJson : Json :=
  .object [("message", .string "mismatched types"), ("range", .object [
    ("end", .object [("character", .number "1"), ("line", .number "0")]),
    ("start", .object [("character", .number "0"), ("line", .number "0")])])]

def broken : Update :=
  ("file:///a.rs", [⟨⟨⟨0, 0⟩, ⟨0, 1⟩⟩, some .hint, none, none, "mismatched types"⟩])

def clean : Update := ("file:///a.rs", [])

def hints : DiagnosticsConfig := ⟨[.hint], 300, 5000, 100, true⟩

def nothingYet : Session := ⟨.empty, true, true⟩

theorem update_broken : (publishOf [brokenJson]).update = some broken := by decide

theorem update_clean : (publishOf []).update = some clean := by decide

theorem settled_is_latest_in_order :
    ∃ steps, steps.map Prod.fst =
        [.subscribe, .read, .startTimers, .replace (publishOf [brokenJson]), .send 0, .receive,
          .receiveNothing, .tick 300, .debounceFires] ∧
      Trace (Step ["file:///a.rs"] hints 16) (start nothingYet) steps ∧
      Trace.Every (fun hub _ hub' => hub'.InLockstep ∧ hub.LatestWord ["file:///a.rs"] hints hub')
        (start nothingYet) steps := by
  have htrace : ∃ steps, steps.map Prod.fst =
        [.subscribe, .read, .startTimers, .replace (publishOf [brokenJson]), .send 0, .receive,
          .receiveNothing, .tick 300, .debounceFires] ∧
      Trace (Step ["file:///a.rs"] hints 16) (start nothingYet) steps ∧
      Trace.Every (fun hub event _ => hub.InOrder ["file:///a.rs"] event) (start nothingYet) steps := by
    refine ⟨[(.subscribe, _), (.read, _), (.startTimers, _), (.replace (publishOf [brokenJson]), _),
      (.send 0, _), (.receive, _), (.receiveNothing, _), (.tick 300, _), (.debounceFires, _)], ?_,
      .cons ⟨rfl, rfl⟩ (.cons ⟨_, _, rfl, rfl⟩ (.cons ⟨rfl, rfl⟩
      (.cons ⟨rfl, _, update_broken, rfl⟩ (.cons ⟨[], _, _, rfl, rfl, rfl⟩
      (.cons ⟨rfl, Nat.zero_le _, _, _, rfl, rfl⟩ (.cons ⟨rfl, rfl, rfl, rfl⟩
      (.cons ⟨Nat.zero_le _, rfl⟩ (.cons ⟨rfl, by decide, rfl⟩ (.nil _))))))))), ?_⟩
    · rfl
    · refine ⟨trivial, trivial, trivial, trivial, fun update _ => ?_, trivial, trivial, trivial,
        trivial, trivial⟩
      exact ⟨fun earlier hearlier => absurd hearlier List.not_mem_nil, nofun⟩
  obtain ⟨steps, hevents, htrace, hmeets⟩ := htrace
  exact ⟨steps, hevents, htrace, settled_is_latest nothingYet (by decide) htrace hmeets⟩

theorem stale_update_settled :
    ∃ steps, steps.map Prod.fst =
        [.subscribe, .read, .startTimers, .replace (publishOf [brokenJson]),
          .replace (publishOf []), .send 1, .send 0, .receive, .receive, .receiveNothing, .tick 300,
          .debounceFires] ∧
      Trace (Step ["file:///a.rs"] hints 16) (start nothingYet) steps ∧
      ¬ Trace.Every (fun _ _ hub' => hub'.InLockstep) (start nothingYet) steps ∧
      ¬ Trace.Every (fun hub _ hub' => hub.LatestWord ["file:///a.rs"] hints hub')
        (start nothingYet) steps := by
  refine ⟨[(.subscribe, _), (.read, _), (.startTimers, _), (.replace (publishOf [brokenJson]), _),
    (.replace (publishOf []), _), (.send 1, _), (.send 0, _), (.receive, _), (.receive, _),
    (.receiveNothing, _), (.tick 300, _), (.debounceFires, _)], ?_,
    .cons ⟨rfl, rfl⟩ (.cons ⟨_, _, rfl, rfl⟩
    (.cons ⟨rfl, rfl⟩
    (.cons ⟨rfl, _, update_broken, rfl⟩
    (.cons ⟨rfl, _, update_clean, rfl⟩
    (.cons ⟨[broken], clean, [], rfl, rfl, rfl⟩
    (.cons ⟨[], _, _, rfl, rfl, rfl⟩
    (.cons ⟨rfl, Nat.zero_le _, _, _, rfl, rfl⟩
    (.cons ⟨rfl, Nat.zero_le _, _, _, rfl, rfl⟩
    (.cons ⟨rfl, rfl, rfl, rfl⟩
    (.cons ⟨Nat.zero_le _, rfl⟩
    (.cons ⟨rfl, by decide, rfl⟩ (.nil _)))))))))))), ?_, ?_⟩
  · rfl
  · intro hall
    have hlock := hall.2.2.2.2.2.2.1
    have hcached := hlock rfl "file:///a.rs" broken.2 (by decide)
    exact absurd hcached (by decide)
  · intro hall
    have hlast := hall.2.2.2.2.2.2.2.2.2.2.2.1
    have hrecords := (hlast _ (fun r h => by cases h) rfl rfl).1
    exact absurd hrecords (by decide)

end SwissArmyHammer.Diagnostics.Hub
