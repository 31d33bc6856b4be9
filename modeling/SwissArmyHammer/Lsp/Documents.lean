import Mathlib.Logic.Function.Basic
import SwissArmyHammer.Common.Traces
import SwissArmyHammer.Lsp.Session

/-! The open documents of a session, and what a server process makes of the notifications it
receives. -/

namespace SwissArmyHammer.Lsp

structure DocState (η : Type) where
  version : Nat
  textHash : η

inductive Notification
  | didOpen (uri languageId : String) (version : Nat) (text : String)
  | didChange (uri : String) (version : Nat) (text : String)
  | didSave (uri : String)
  | didClose (uri : String)

def Notification.uri : Notification → String
  | .didOpen uri _ _ _ | .didChange uri _ _ | .didSave uri | .didClose uri => uri

inductive LspError
  | notRunning
  | io
  | jsonRpc (message : String)

structure Documents (η : Type) where
  docs : String → Option (DocState η)
  client : Option (List Notification)
  gone : List (List Notification)

namespace Documents

variable {η : Type} (hash : String → η) (languageId : String) (documents : Documents η)

def isOpen (path : String) : Bool := (documents.docs (fileUri path)).isSome

def record (uri : String) (state : Option (DocState η)) : Documents η :=
  { documents with docs := Function.update documents.docs uri state }

def notify (written : Bool) (notification : Notification) : Except LspError (Documents η) :=
  match documents.client with
  | none => .error .notRunning
  | some received =>
    if written then .ok { documents with client := some (received ++ [notification]) }
    else .error .io

def openDocument (path text : String) (written : Bool) : Documents η × Except LspError Unit :=
  let uri := fileUri path
  match documents.docs uri with
  | some _ => (documents, .ok ())
  | none =>
    match documents.notify written (.didOpen uri languageId 1 text) with
    | .error e => (documents, .error e)
    | .ok documents' => (documents'.record uri (some ⟨1, hash text⟩), .ok ())

def change [DecidableEq η] (path text : String) (written : Bool) : Documents η × Except LspError Unit :=
  let uri := fileUri path
  match documents.docs uri with
  | none => (documents, .error (.jsonRpc ("change on document that is not open: " ++ uri)))
  | some state =>
    if state.textHash = hash text then (documents, .ok ())
    else
      match documents.notify written (.didChange uri (state.version + 1) text) with
      | .error e => (documents, .error e)
      | .ok documents' => (documents'.record uri (some ⟨state.version + 1, hash text⟩), .ok ())

def save (path : String) (written : Bool) : Documents η × Except LspError Unit :=
  let uri := fileUri path
  match documents.docs uri with
  | none => (documents, .ok ())
  | some _ =>
    match documents.notify written (.didSave uri) with
    | .error e => (documents, .error e)
    | .ok documents' => (documents', .ok ())

def close (path : String) (written : Bool) : Documents η × Except LspError Unit :=
  let uri := fileUri path
  match documents.docs uri with
  | none => (documents, .ok ())
  | some _ =>
    match documents.notify written (.didClose uri) with
    | .error e => (documents, .error e)
    | .ok documents' => (documents'.record uri none, .ok ())

def clearClient : Documents η :=
  { documents with client := none, gone := documents.gone ++ documents.client.toList }

def resetDocuments : Documents η := { documents with docs := fun _ => none }

def install (client : Bool) : Documents η :=
  { documents with
    client := if client then some [] else none
    gone := documents.gone ++ documents.client.toList }

end Documents

structure Document where
  version : Nat
  text : String

def receive (uri : String) (document : Option Document) (notification : Notification) :
    Option (Option Document) :=
  if notification.uri = uri then
    match notification, document with
    | .didOpen _ _ version text, none => if version = 1 then some (some ⟨version, text⟩) else none
    | .didChange _ version text, some document =>
      if document.version < version then some (some ⟨version, text⟩) else none
    | .didSave _, some document => some (some document)
    | .didClose _, some _ => some none
    | _, _ => none
  else some document

def received (uri : String) (log : List Notification) : Option (Option Document) :=
  log.foldlM (receive uri) none

def WellFormedFor (uri : String) (log : List Notification) : Prop := (received uri log).isSome = true

def openIn (uri : String) (log : List Notification) : Option Document := (received uri log).join

theorem received_append (uri : String) (log : List Notification) (notification : Notification) :
    received uri (log ++ [notification]) =
      (received uri log).bind fun document => receive uri document notification := by
  rw [received, List.foldlM_append, received]
  cases log.foldlM (receive uri) none with
  | none => rfl
  | some document => simp

theorem receive_of_ne {uri : String} {notification : Notification} (h : notification.uri ≠ uri)
    (document : Option Document) : receive uri document notification = some document := by
  unfold receive
  rw [if_neg h]

section

variable {η : Type} {hash : String → η} {documents : Documents η} {docs : String → Option (DocState η)} {log : List Notification}

def stateOf (hash : String → η) (document : Document) : DocState η :=
  ⟨document.version, hash document.text⟩

def Agrees (hash : String → η) (docs : String → Option (DocState η)) (log : List Notification) :
    Prop :=
  ∀ uri, WellFormedFor uri log ∧ docs uri = (openIn uri log).map (stateOf hash)

theorem Agrees.received_eq (h : Agrees hash docs log) (uri : String) :
    received uri log = some (openIn uri log) := by
  obtain ⟨document, hdocument⟩ := Option.isSome_iff_exists.mp (h uri).1
  rw [openIn, hdocument]
  rfl

theorem Agrees.notified {uri : String} {notification : Notification} {document : Option Document}
    (h : Agrees hash docs log) (huri : notification.uri = uri)
    (hreceive : receive uri (openIn uri log) notification = some document) :
    Agrees hash (Function.update docs uri (document.map (stateOf hash))) (log ++ [notification]) := by
  intro other
  have hafter : received other (log ++ [notification]) =
      receive other (openIn other log) notification := by
    rw [received_append, h.received_eq other, Option.bind_some]
  by_cases hother : other = uri
  · subst hother
    rw [WellFormedFor, openIn, hafter, hreceive, Function.update_self]
    exact ⟨rfl, rfl⟩
  · have hsame : received other (log ++ [notification]) = some (openIn other log) := by
      rw [hafter, receive_of_ne fun heq => hother (heq.symm.trans huri)]
    rw [WellFormedFor, openIn, hsame, Function.update_of_ne hother]
    exact ⟨rfl, (h other).2⟩

theorem Agrees.state_eq {uri : String} {state : DocState η} (h : Agrees hash docs log)
    (hstate : docs uri = some state) : ∃ document, openIn uri log = some document ∧
      state = stateOf hash document := by
  have hdocs := (h uri).2
  rw [hstate] at hdocs
  obtain ⟨document, hdocument, hstateOf⟩ := Option.map_eq_some_iff.mp hdocs.symm
  exact ⟨document, hdocument, hstateOf.symm⟩

theorem Agrees.closed {uri : String} (h : Agrees hash docs log) (hstate : docs uri = none) :
    openIn uri log = none := by
  have hdocs := (h uri).2
  rw [hstate] at hdocs
  exact Option.map_eq_none_iff.mp hdocs.symm

def Documents.Synced (hash : String → η) (documents : Documents η) : Prop :=
  ∀ log, documents.client = some log → Agrees hash documents.docs log

structure Documents.Sends (hash : String → η) (documents documents' : Documents η)
    (log : List Notification) (uri : String) (notification : Notification)
    (document : Option Document) : Prop where
  client : documents.client = some log
  client' : documents'.client = some (log ++ [notification])
  gone : documents'.gone = documents.gone
  docs : documents'.docs = Function.update documents.docs uri (document.map (stateOf hash))
  uri_eq : notification.uri = uri
  takes : receive uri (openIn uri log) notification = some document

def Documents.Calls (hash : String → η) (documents documents' : Documents η) : Prop :=
  documents' = documents ∨ ∃ log uri notification document,
    documents.Sends hash documents' log uri notification document

theorem Documents.Calls.synced {documents' : Documents η} (h : documents.Calls hash documents')
    (hsynced : documents.Synced hash) : documents'.Synced hash := by
  rcases h with rfl | ⟨log, uri, notification, document, hsends⟩
  · exact hsynced
  · intro log' hlog'
    rw [hsends.client'] at hlog'
    obtain rfl := Option.some.inj hlog'
    rw [hsends.docs]
    exact (hsynced log hsends.client).notified hsends.uri_eq hsends.takes

end

section

variable {η : Type} {hash : String → η} {languageId : String} {documents : Documents η}

theorem Documents.notify_cases (written : Bool) (notification : Notification) :
    (∃ e, documents.notify written notification = .error e) ∨
      ∃ log, documents.client = some log ∧ documents.notify written notification =
        .ok { documents with client := some (log ++ [notification]) } := by
  unfold notify
  cases hclient : documents.client with
  | none => exact .inl ⟨.notRunning, rfl⟩
  | some log =>
    grind

theorem Documents.calls_openDocument (hsynced : documents.Synced hash) (path text : String)
    (written : Bool) :
    documents.Calls hash (documents.openDocument hash languageId path text written).1 := by
  unfold openDocument
  dsimp only
  cases hstate : documents.docs (fileUri path) with
  | some state => exact .inl rfl
  | none =>
    rcases documents.notify_cases written (.didOpen (fileUri path) languageId 1 text) with
      ⟨e, hfailed⟩ | ⟨log, hclient, hsent⟩
    · rw [hfailed]
      exact .inl rfl
    · rw [hsent]
      refine .inr ⟨log, fileUri path, _, some ⟨1, text⟩, hclient, rfl, rfl, rfl, rfl, ?_⟩
      rw [(hsynced log hclient).closed hstate]
      simp [receive, Notification.uri]

theorem Documents.calls_change [DecidableEq η] (hsynced : documents.Synced hash) (path text : String)
    (written : Bool) : documents.Calls hash (documents.change hash path text written).1 := by
  unfold change
  dsimp only
  cases hstate : documents.docs (fileUri path) with
  | none => exact .inl rfl
  | some state =>
    dsimp only
    split
    · exact .inl rfl
    · rcases documents.notify_cases written (.didChange (fileUri path) (state.version + 1) text) with
        ⟨e, hfailed⟩ | ⟨log, hclient, hsent⟩
      · rw [hfailed]
        exact .inl rfl
      · rw [hsent]
        obtain ⟨document, hdocument, rfl⟩ := (hsynced log hclient).state_eq hstate
        refine .inr ⟨log, fileUri path, _, some ⟨document.version + 1, text⟩, hclient, rfl, rfl, rfl,
          rfl, ?_⟩
        rw [hdocument]
        simp [receive, Notification.uri, stateOf]

theorem Documents.calls_save (hsynced : documents.Synced hash) (path : String) (written : Bool) :
    documents.Calls hash (documents.save path written).1 := by
  unfold save
  dsimp only
  cases hstate : documents.docs (fileUri path) with
  | none => exact .inl rfl
  | some state =>
    rcases documents.notify_cases written (.didSave (fileUri path)) with
      ⟨e, hfailed⟩ | ⟨log, hclient, hsent⟩
    · rw [hfailed]
      exact .inl rfl
    · rw [hsent]
      obtain ⟨document, hdocument, rfl⟩ := (hsynced log hclient).state_eq hstate
      refine .inr ⟨log, fileUri path, _, some document, hclient, rfl, rfl, ?_, rfl, ?_⟩
      · exact (Function.update_eq_self_iff.mpr hstate.symm).symm
      · rw [hdocument]
        simp [receive, Notification.uri]

theorem Documents.calls_close (hsynced : documents.Synced hash) (path : String) (written : Bool) :
    documents.Calls hash (documents.close path written).1 := by
  unfold close
  dsimp only
  cases hstate : documents.docs (fileUri path) with
  | none => exact .inl rfl
  | some state =>
    rcases documents.notify_cases written (.didClose (fileUri path)) with
      ⟨e, hfailed⟩ | ⟨log, hclient, hsent⟩
    · rw [hfailed]
      exact .inl rfl
    · rw [hsent]
      obtain ⟨document, hdocument, rfl⟩ := (hsynced log hclient).state_eq hstate
      refine .inr ⟨log, fileUri path, _, none, hclient, rfl, rfl, rfl, rfl, ?_⟩
      rw [hdocument]
      simp [receive, Notification.uri]

end

end SwissArmyHammer.Lsp

/-! Clones of a session among the steps of the daemon: `sync_open` looks, and then acts. -/

namespace SwissArmyHammer.Lsp

variable {η : Type}

inductive Daemon
  | idle
  | resetting
  | installing
  deriving DecidableEq

/-- A `sync_open` between its two steps. `matched` tells whether the server's text was `text` at
some moment since it began. -/
structure Sync where
  path : String
  text : String
  sawOpen : Bool
  matched : Bool

structure Shared (η : Type) where
  documents : Documents η
  daemon : Daemon
  syncs : List Sync

inductive SessionEvent
  | openDocument (path text : String) (written : Bool)
  | change (path text : String) (written : Bool)
  | save (path : String) (written : Bool)
  | close (path : String) (written : Bool)
  | syncLook (path text : String)
  | syncAct (i : Nat) (written : Bool)
  | clearClient
  | resetDocuments
  | startReset
  | install (client : Bool)

def Documents.serverText (documents : Documents η) (path : String) : Option String :=
  documents.client.bind fun log => (openIn (fileUri path) log).map Document.text

def Sync.note (documents : Documents η) (sync : Sync) : Sync :=
  { sync with
    matched := sync.matched || decide (documents.serverText sync.path = some sync.text) }

def Sync.act [DecidableEq η] (hash : String → η) (languageId : String) (documents : Documents η) (sync : Sync)
    (written : Bool) : Documents η × Except LspError Unit :=
  if sync.sawOpen then documents.change hash sync.path sync.text written
  else documents.openDocument hash languageId sync.path sync.text written

namespace Shared

def start : Shared η := ⟨⟨fun _ => none, none, []⟩, .idle, []⟩

section

variable [DecidableEq η] (hash : String → η) (languageId : String) (shared : Shared η)

def become (documents : Documents η) (daemon : Daemon) (syncs : List Sync) : Shared η :=
  ⟨documents, daemon, syncs.map (Sync.note documents)⟩

def Step : SessionEvent → Shared η → Prop
  | .openDocument path text written, shared' =>
    shared' = become (shared.documents.openDocument hash languageId path text written).1
      shared.daemon shared.syncs
  | .change path text written, shared' =>
    shared' = become (shared.documents.change hash path text written).1 shared.daemon shared.syncs
  | .save path written, shared' =>
    shared' = become (shared.documents.save path written).1 shared.daemon shared.syncs
  | .close path written, shared' =>
    shared' = become (shared.documents.close path written).1 shared.daemon shared.syncs
  | .syncLook path text, shared' =>
    shared' = become shared.documents shared.daemon
      (shared.syncs ++ [⟨path, text, shared.documents.isOpen path, false⟩])
  | .syncAct i written, shared' => ∃ before sync after, shared.syncs = before ++ sync :: after ∧
    before.length = i ∧ shared' = become (sync.act hash languageId shared.documents written).1
      shared.daemon (before ++ after)
  | .clearClient, shared' => shared.daemon = .idle ∧
    shared' = become shared.documents.clearClient .resetting shared.syncs
  | .resetDocuments, shared' => shared.daemon = .resetting ∧
    shared' = become shared.documents.resetDocuments .idle shared.syncs
  | .startReset, shared' => shared.daemon = .idle ∧
    shared' = become shared.documents.resetDocuments .installing shared.syncs
  | .install client, shared' => shared.daemon = .installing ∧
    shared' = become (shared.documents.install client) .idle shared.syncs

/-- What every process received is well formed, and the open set is that of the client's. -/
def Agreed : Prop :=
  (∀ log ∈ shared.documents.client.toList ++ shared.documents.gone, ∀ uri, WellFormedFor uri log) ∧
    ∀ log, shared.documents.client = some log → ∀ uri,
      shared.documents.docs uri = (openIn uri log).map (stateOf hash)

/-- A `sync_open` that returns Ok had the text at the server at some moment of the call, and it
fails only where there is no client or the write fails. -/
def SyncsOpen (event : SessionEvent) (shared' : Shared η) : Prop :=
  ∀ i written sync, event = .syncAct i written → shared.syncs[i]? = some sync →
    match (sync.act hash languageId shared.documents written).2 with
    | .ok () => sync.matched = true ∨ shared'.documents.serverText sync.path = some sync.text
    | .error _ => shared.documents.client = none ∨ written = false

def AsLooked (sync : Sync) : Prop :=
  match sync.sawOpen, shared.documents.docs (fileUri sync.path) with
  | true, none => shared.documents.client = none
  | true, some state => state.textHash = hash sync.text → shared.documents.client ≠ none
  | false, none => True
  | false, some state => state.textHash = hash sync.text ∧ shared.documents.client ≠ none

/-- A start finds no client, and a `sync_open` acts on what its look has found. -/
def Meets : SessionEvent → Prop
  | .startReset => shared.documents.client = none
  | .syncAct i _ => ∀ sync, shared.syncs[i]? = some sync → shared.AsLooked hash sync
  | _ => True

end

section

variable {hash : String → η} {languageId : String} {shared shared' : Shared η}
  {event : SessionEvent} {documents documents' : Documents η} {steps : List (SessionEvent × Shared η)}

structure Inv (hash : String → η) (shared : Shared η) : Prop where
  synced : shared.documents.Synced hash
  gone : ∀ log ∈ shared.documents.gone, ∀ uri, WellFormedFor uri log
  cleared : shared.daemon ≠ .resetting → shared.documents.client = none →
    ∀ uri, shared.documents.docs uri = none
  stopped : shared.daemon ≠ .idle → shared.documents.client = none

theorem inv_start : Inv hash (start : Shared η) where
  synced log h := by cases h
  gone log h := absurd h List.not_mem_nil
  cleared _ _ _ := rfl
  stopped h := absurd rfl h

theorem Inv.agreed (hinv : Inv hash shared) : shared.Agreed hash := by
  constructor
  · intro log hlog uri
    rcases List.mem_append.mp hlog with hlog | hlog
    · exact (hinv.synced log (Option.mem_toList.mp hlog) uri).1
    · exact hinv.gone log hlog uri
  · exact fun log hlog uri => (hinv.synced log hlog uri).2

theorem Inv.calls {syncs : List Sync} (hinv : Inv hash shared)
    (hcalls : shared.documents.Calls hash documents') :
    Inv hash (become documents' shared.daemon syncs) := by
  have hsynced := hcalls.synced hinv.synced
  rcases hcalls with rfl | ⟨log, uri, notification, document, hsends⟩
  · exact ⟨hsynced, hinv.gone, hinv.cleared, hinv.stopped⟩
  · refine ⟨hsynced, ?_, fun _ hclient => ?_, fun hdaemon => ?_⟩
    · intro other hother
      exact hinv.gone other (hsends.gone ▸ hother)
    · have hclient' : documents'.client = none := hclient
      rw [hsends.client'] at hclient'
      cases hclient'
    · have hstopped := hinv.stopped hdaemon
      rw [hsends.client] at hstopped
      cases hstopped

theorem calls_act [DecidableEq η] (hsynced : documents.Synced hash) (sync : Sync) (written : Bool) :
    documents.Calls hash (sync.act hash languageId documents written).1 := by
  unfold Sync.act
  split
  · exact Documents.calls_change hsynced _ _ _
  · exact Documents.calls_openDocument hsynced _ _ _

theorem Inv.past (hinv : Inv hash shared) :
    ∀ log ∈ shared.documents.gone ++ shared.documents.client.toList, ∀ uri,
      WellFormedFor uri log := by
  intro log hlog uri
  rcases List.mem_append.mp hlog with hlog | hlog
  · exact hinv.gone log hlog uri
  · exact (hinv.synced log (Option.mem_toList.mp hlog) uri).1

theorem Inv.step [DecidableEq η] (hinv : Inv hash shared) (hmeets : shared.Meets hash event)
    (hstep : shared.Step hash languageId event shared') : Inv hash shared' := by
  cases event with
  | openDocument path text written =>
    obtain rfl := hstep
    exact hinv.calls (Documents.calls_openDocument hinv.synced _ _ _)
  | change path text written =>
    obtain rfl := hstep
    exact hinv.calls (Documents.calls_change hinv.synced _ _ _)
  | save path written =>
    obtain rfl := hstep
    exact hinv.calls (Documents.calls_save hinv.synced _ _)
  | close path written =>
    obtain rfl := hstep
    exact hinv.calls (Documents.calls_close hinv.synced _ _)
  | syncLook path text =>
    obtain rfl := hstep
    exact hinv.calls (.inl rfl)
  | syncAct i written =>
    obtain ⟨before, sync, after, -, -, rfl⟩ := hstep
    exact hinv.calls (calls_act hinv.synced _ _)
  | clearClient =>
    obtain ⟨-, rfl⟩ := hstep
    exact ⟨nofun, hinv.past, fun h => absurd rfl h, fun _ => rfl⟩
  | resetDocuments =>
    obtain ⟨hdaemon, rfl⟩ := hstep
    have hclient : shared.documents.client = none :=
      hinv.stopped (by rw [hdaemon]; nofun)
    refine ⟨fun log hlog => ?_, hinv.gone, fun _ _ _ => rfl, fun h => absurd rfl h⟩
    exact absurd (hlog.symm.trans hclient) (Option.some_ne_none _)
  | startReset =>
    obtain ⟨-, rfl⟩ := hstep
    refine ⟨fun log hlog => ?_, hinv.gone, fun _ _ _ => rfl, fun _ => hmeets⟩
    exact absurd (hlog.symm.trans hmeets) (Option.some_ne_none _)
  | install client =>
    obtain ⟨hdaemon, rfl⟩ := hstep
    have hclient : shared.documents.client = none :=
      hinv.stopped (by rw [hdaemon]; nofun)
    have hdocs := hinv.cleared (by rw [hdaemon]; nofun) hclient
    refine ⟨fun log hlog => ?_, hinv.past, fun _ _ => hdocs, fun h => absurd rfl h⟩
    cases client with
    | false => cases hlog
    | true =>
      obtain rfl := Option.some.inj hlog
      intro uri
      exact ⟨rfl, hdocs uri⟩

theorem serverText_of_agrees {path text : String} {log : List Notification} {state : DocState η}
    (hinj : Function.Injective hash) (hsynced : documents.Synced hash)
    (hclient : documents.client = some log) (hstate : documents.docs (fileUri path) = some state)
    (htext : state.textHash = hash text) : documents.serverText path = some text := by
  obtain ⟨document, hdocument, rfl⟩ := (hsynced log hclient).state_eq hstate
  have hsame : document.text = text := hinj htext
  rw [Documents.serverText, hclient, Option.bind_some, hdocument, Option.map_some, hsame]

theorem act_spec [DecidableEq η] (hinj : Function.Injective hash)
    (hsynced : shared.documents.Synced hash) (languageId : String) {sync : Sync} (written : Bool)
    (hlooked : shared.AsLooked hash sync) :
    match sync.act hash languageId shared.documents written with
    | (documents', .ok ()) => documents'.serverText sync.path = some sync.text
    | (_, .error _) => shared.documents.client = none ∨ written = false := by
  have hcalls : shared.documents.Calls hash
      (sync.act hash languageId shared.documents written).1 := calls_act hsynced sync written
  have hsynced' := hcalls.synced hsynced
  have hhave : ∀ {state}, shared.documents.docs (fileUri sync.path) = some state →
      state.textHash = hash sync.text → shared.documents.client ≠ none →
      shared.documents.serverText sync.path = some sync.text := by
    intro state hstate htext hclient
    obtain ⟨log, hlog⟩ := Option.ne_none_iff_exists'.mp hclient
    exact serverText_of_agrees hinj hsynced hlog hstate htext
  unfold Sync.act at hsynced' ⊢
  unfold AsLooked at hlooked
  cases hsaw : sync.sawOpen with
  | true =>
    rw [hsaw] at hlooked
    simp only [hsaw, if_true, Documents.change, Documents.notify] at hsynced' ⊢
    cases hstate : shared.documents.docs (fileUri sync.path) with
    | none =>
      rw [hstate] at hlooked
      exact .inl hlooked
    | some state =>
      rw [hstate] at hlooked
      simp only [hstate] at hsynced'
      dsimp only
      by_cases htext : state.textHash = hash sync.text
      · rw [if_pos htext]
        exact hhave hstate htext (hlooked htext)
      · rw [if_neg htext] at hsynced' ⊢
        cases hclient : shared.documents.client with
        | none => exact .inl rfl
        | some log =>
          cases written with
          | false => exact .inr rfl
          | true =>
            simp only [hclient, if_true] at hsynced'
            exact serverText_of_agrees hinj hsynced' rfl (Function.update_self ..) rfl
  | false =>
    rw [hsaw] at hlooked
    simp only [hsaw, Bool.false_eq_true, if_false, Documents.openDocument, Documents.notify]
      at hsynced' ⊢
    cases hstate : shared.documents.docs (fileUri sync.path) with
    | some state =>
      rw [hstate] at hlooked
      exact hhave hstate hlooked.1 hlooked.2
    | none =>
      simp only [hstate] at hsynced'
      cases hclient : shared.documents.client with
      | none => exact .inl rfl
      | some log =>
        cases written with
        | false => exact .inr rfl
        | true =>
          simp only [hclient, if_true] at hsynced'
          exact serverText_of_agrees hinj hsynced' rfl (Function.update_self ..) rfl

theorem syncsOpen_step [DecidableEq η] (hinj : Function.Injective hash) (hinv : Inv hash shared)
    (hmeets : shared.Meets hash event) (hstep : shared.Step hash languageId event shared') :
    shared.SyncsOpen hash languageId event shared' := by
  rintro i written sync rfl hget
  obtain ⟨before, sync', after, hsyncs, rfl, rfl⟩ := hstep
  have hsame : sync = sync' := by
    rw [hsyncs] at hget
    simpa using hget.symm
  subst hsame
  have hspec := act_spec hinj hinv.synced languageId written (hmeets sync hget)
  revert hspec
  cases sync.act hash languageId shared.documents written with
  | mk documents' result =>
    cases result with
    | ok value => exact .inr
    | error e => exact id

end

end Shared

end SwissArmyHammer.Lsp
