import SwissArmyHammer.Cache.Operations

/-! The map settles on the file when no call updates it late. -/

namespace SwissArmyHammer.Cache

open Entities Concurrency

variable {hash : Fields → UInt64} {s s' : State} {c : Call}

def Pc.Remembers (seen : Option Fields) : Pc → Prop
  | .writeVersion canonical | .writeInsert canonical .. =>
    ∀ fields, seen = some fields → fields = canonical
  | .refreshInsert entity | .unarchiveInsert entity _ => seen = some entity
  | .remove | .evict => seen = none
  | _ => True

theorem remembers_starts (h : s.starts c = true) : c.pc.Remembers c.seen := by
  obtain ⟨pc, seen⟩ := c
  simp only [State.starts, Bool.and_eq_true, decide_eq_true_eq] at h
  obtain ⟨hseen, hpc⟩ := h
  cases pc with
  | evict => exact hseen.trans (Option.isNone_iff_eq_none.mp hpc)
  | _ => simp_all [Pc.Remembers]

theorem step_eq_some {c' : Call} : (s.step hash c).2 = some c' ↔
    ∃ pc, (advance hash s c.pc).2 = some pc ∧
      ⟨pc, if c.pc.accessesFile then (advance hash s c.pc).1.file else c.seen⟩ = c' :=
  Option.map_eq_some_iff

theorem remembers_step {c' : Call} (h : c.pc.Remembers c.seen)
    (hnext : (s.step hash c).2 = some c') : c'.pc.Remembers c'.seen := by
  obtain ⟨pc, seen⟩ := c
  obtain ⟨pc', hpc', rfl⟩ := step_eq_some.mp hnext
  cases pc with
  | write entity written =>
    obtain rfl := Option.some.inj hpc'
    trivial
  | writeFile entity written old =>
    cases written with
    | none => simp [advance] at hpc'
    | some written =>
      obtain rfl := Option.some.inj hpc'
      trivial
  | writeReadBack entity old =>
    have hcanonical : ∀ fields, s.file = some fields → fields = s.file.getD entity := by
      intro fields hfields
      rw [hfields, Option.getD_some]
    simp only [advance, Pc.accessesFile, if_true] at hpc' ⊢
    split_ifs at hpc' ⊢
    · obtain rfl := Option.some.inj hpc'
      exact hcanonical
    · obtain rfl := Option.some.inj hpc'
      exact hcanonical
  | writeVersion canonical =>
    rw [advance] at hpc'
    cases hcache : s.cache with
    | none =>
      simp only [hcache, Option.some.injEq] at hpc'
      rw [← hpc']
      exact h
    | some cached =>
      simp only [hcache, Option.some.injEq] at hpc'
      rw [← hpc']
      exact h
  | writeInsert canonical version event =>
    obtain ⟨event, -, rfl⟩ := Option.map_eq_some_iff.mp hpc'
    trivial
  | refresh | delete | archive =>
    cases hfile : s.file with
    | none => simp [advance, hfile] at hpc'
    | some entity =>
      simp only [advance, hfile, Option.some.injEq, Pc.accessesFile, if_true] at hpc' ⊢
      rw [← hpc']
      rfl
  | refreshInsert entity =>
    rw [advance] at hpc'
    split_ifs at hpc'
    obtain rfl := Option.some.inj hpc'
    trivial
  | remove =>
    obtain rfl := Option.some.inj hpc'
    trivial
  | unarchive =>
    cases harchived : s.archived with
    | nil => simp [advance, harchived] at hpc'
    | cons entity archived =>
      simp only [advance, harchived, Option.some.injEq] at hpc'
      rw [← hpc']
      trivial
  | unarchiveReadBack =>
    cases hfile : s.file with
    | none => simp [advance, hfile] at hpc'
    | some entity =>
      simp only [advance, hfile, Option.some.injEq, Pc.accessesFile, if_true] at hpc' ⊢
      rw [← hpc']
      exact hfile
  | unarchiveInsert entity version =>
    obtain rfl := Option.some.inj hpc'
    trivial
  | evict =>
    simp only [advance] at hpc'
    split_ifs at hpc'
    obtain rfl := Option.some.inj hpc'
    trivial
  | send event => simp [advance] at hpc'

def Updates (hash : Fields → UInt64) (s : State) (c : Call) : Prop :=
  match c.pc with
  | .writeInsert .. => c.seen ≠ none
  | .refreshInsert entity => s.cache.map CachedEntity.hash ≠ some (hash entity)
  | .remove | .unarchiveInsert .. | .evict => True
  | _ => False

theorem settled_update_iff (hremembers : c.pc.Remembers c.seen) (h : Updates hash s c) :
    Settled (s.step hash c).1 ↔ s.file = c.seen := by
  obtain ⟨pc, seen⟩ := c
  change Settled (advance hash s pc).1 ↔ s.file = seen
  cases pc with
  | writeInsert canonical version event =>
    obtain ⟨fields, hfields⟩ := Option.ne_none_iff_exists'.mp h
    have hseen : seen = some fields := hfields
    have hcanonical : fields = canonical := hremembers fields hfields
    rw [hseen, hcanonical]
    exact eq_comm
  | refreshInsert entity =>
    have hseen : seen = some entity := hremembers
    rw [advance, if_neg h, hseen]
    exact eq_comm
  | remove =>
    have hseen : seen = none := hremembers
    rw [hseen]
    exact eq_comm
  | unarchiveInsert entity version =>
    have hseen : seen = some entity := hremembers
    rw [hseen]
    exact eq_comm
  | evict =>
    have hseen : seen = none := hremembers
    rw [hseen]
    exact eq_comm
  | _ => exact absurd h id

def Pc.comesToMap : Pc → Bool
  | .writeInsert .. | .refreshInsert .. | .remove | .unarchiveReadBack | .unarchiveInsert ..
  | .evict => true
  | _ => false

theorem owes_or_same (hash : Fields → UInt64) (s : State) {pc : Pc}
    (h : pc.comesToMap = false) :
    (∃ pc', (advance hash s pc).2 = some pc' ∧ pc'.owes = true) ∨
      (pc.owes = false ∧ (advance hash s pc).1.file = s.file ∧
        (advance hash s pc).1.cache = s.cache) := by
  cases pc with
  | write entity written => exact .inr ⟨rfl, rfl, rfl⟩
  | writeFile entity written old =>
    cases written with
    | none => exact .inr ⟨rfl, rfl, rfl⟩
    | some written => exact .inl ⟨_, rfl, rfl⟩
  | writeReadBack entity old =>
    refine .inl ?_
    rw [advance]
    split_ifs
    · exact ⟨_, rfl, rfl⟩
    · exact ⟨_, rfl, rfl⟩
  | writeVersion canonical =>
    refine .inl ?_
    rw [advance]
    cases s.cache with
    | none => exact ⟨_, rfl, rfl⟩
    | some cached => exact ⟨_, rfl, rfl⟩
  | refresh | delete | archive =>
    cases hfile : s.file with
    | none =>
      refine .inr ⟨rfl, ?_, ?_⟩
      · simp only [advance, hfile]
      · simp only [advance, hfile]
    | some entity =>
      simp only [advance, hfile]
      exact .inl ⟨_, rfl, rfl⟩
  | unarchive =>
    cases harchived : s.archived with
    | nil =>
      refine .inr ⟨rfl, ?_, ?_⟩
      · simp only [advance, harchived]
      · simp only [advance, harchived]
    | cons entity archived =>
      simp only [advance, harchived]
      exact .inl ⟨_, rfl, rfl⟩
  | send event => exact .inr ⟨rfl, rfl, rfl⟩
  | _ => simp [Pc.comesToMap] at h

theorem settled_step {others : List Call} (hremembers : c.pc.Remembers c.seen)
    (hok : Timely hash s c others) (h : c.pc.owes = true ∨ Settled s) :
    (Settled (s.step hash c).1 ∨
      ∃ c', (s.step hash c).2 = some c' ∧ c'.pc.owes = true) ∨
        ∃ other ∈ others, other.pc.owes = true := by
  rcases hok with hupToDate | hothers
  · refine .inl ?_
    obtain ⟨pc, seen⟩ := c
    have hupdate : Updates hash s ⟨pc, seen⟩ → s.file = seen →
        Settled (s.step hash ⟨pc, seen⟩).1 := fun hupdates hseen =>
      (settled_update_iff hremembers hupdates).mpr hseen
    have hnext : (∃ pc', (advance hash s pc).2 = some pc' ∧ pc'.owes = true) →
        ∃ c', (s.step hash ⟨pc, seen⟩).2 = some c' ∧ c'.pc.owes = true := by
      rintro ⟨pc', hpc', howes⟩
      exact ⟨_, step_eq_some.mpr ⟨pc', hpc', rfl⟩, howes⟩
    cases hmap : pc.comesToMap with
    | false =>
      rcases owes_or_same hash s hmap with howes | ⟨hnot, hfile, hcache⟩
      · exact .inr (hnext howes)
      · have hsettled : Settled s := h.resolve_left (by simp [hnot])
        refine .inl ?_
        show (advance hash s pc).1.cache.map CachedEntity.entity = (advance hash s pc).1.file
        rw [hfile, hcache]
        exact hsettled
    | true =>
      cases pc with
      | writeInsert canonical version event => exact .inl (hupdate hupToDate.2 hupToDate.1)
      | refreshInsert entity =>
        by_cases hequal : s.cache.map CachedEntity.hash = some (hash entity)
        · have hfile : s.file = some entity := hupToDate.1.trans hremembers
          obtain ⟨cached, hcached, heq⟩ := Option.map_eq_some_iff.mp hequal
          refine .inl ?_
          show Settled (advance hash s (.refreshInsert entity)).1
          rw [advance, if_pos hequal, Settled, hcached, hfile, Option.map_some,
            hupToDate.2 cached hcached heq]
        · exact .inl (hupdate hequal hupToDate.1)
      | remove => exact .inl (hupdate trivial hupToDate)
      | unarchiveReadBack =>
        cases hfile : s.file with
        | none =>
          have hcache : s.cache = none := hupToDate.resolve_left fun habs => habs hfile
          refine .inl ?_
          show Settled (advance hash s .unarchiveReadBack).1
          simp only [advance, hfile, Settled, hcache]
          rfl
        | some entity =>
          refine .inr (hnext ?_)
          simp only [advance, hfile]
          exact ⟨_, rfl, rfl⟩
      | unarchiveInsert entity version => exact .inl (hupdate trivial hupToDate)
      | evict => exact .inl (hupdate trivial hupToDate)
      | _ => simp [Pc.comesToMap] at hmap
  · exact .inr hothers

/-- From a settled state without calls, every run in which no call updates the map late ends
settled once all calls have returned. -/
theorem settled_of_timely (h : Run (protocol hash) (Timely hash) (s, []) (s', []))
    (hstart : Settled s) : Settled s' := by
  refine h.settles (fun _ c => c.pc.Remembers c.seen) Settled (fun c => c.pc.owes = true)
    ?_ ?_ ?_ ?_ hstart
  · intro s c hstarts
    exact remembers_starts hstarts
  · intro s c c' hremembers hnext
    exact remembers_step hremembers hnext
  · intro s c other hremembers hother
    exact hremembers
  · intro s c others hremembers hok howes
    exact settled_step hremembers hok howes

def task (title : String) : Fields := (∅ : Fields).insert "title" (.string title)

def titleLength (fields : Fields) : UInt64 :=
  match fields["title"]? with
  | some (.string title) => UInt64.ofNat title.length
  | _ => 0

def emptyState : State := ⟨none, [], none, 1, []⟩

theorem settled_of_timely_write :
    Settled ⟨some (task "a"), [], some ⟨task "a", titleLength (task "a"), 1⟩, 2,
      [.changed 1 (diff none (task "a"))]⟩ := by
  have hrun : Run (protocol titleLength) (Timely titleLength) (emptyState, [])
      (⟨some (task "a"), [], some ⟨task "a", titleLength (task "a"), 1⟩, 2,
        [.changed 1 (diff none (task "a"))]⟩, []) := by
    have hstart : Step (protocol titleLength) (Timely titleLength) (emptyState, [])
        (emptyState, [⟨.write (task "a") (some (task "a")), none⟩]) := .start [] rfl
    refine .head hstart ?_
    refine .head (.advance [] [] (.inl trivial)) ?_
    refine .head (.advance [] [] (.inl trivial)) ?_
    refine .head (.advance [] [] (.inl trivial)) ?_
    refine .head (.advance [] [] (.inl ⟨rfl, Option.some_ne_none (task "a")⟩)) ?_
    exact .single (.advance [] [] (.inl trivial))
  exact settled_of_timely hrun rfl

theorem late_write_stays :
    let stop : State := ⟨some (task "bb"), [], some ⟨task "a", titleLength (task "a"), 1⟩, 3,
      [.changed 2 (diff none (task "bb")), .changed 1 (diff none (task "a"))]⟩
    Settled emptyState ∧
      Run (protocol titleLength) (fun _ _ _ => True) (emptyState, []) (stop, []) ∧
        ¬ Settled stop := by
  refine ⟨rfl, ?_, by decide⟩
  refine run_of_play [.start ⟨.write (task "bb") (some (task "bb")), none⟩,
    .start ⟨.write (task "a") (some (task "a")), none⟩,
    .advance 0, .advance 0, .advance 0,
    .advance 1, .advance 1, .advance 1, .advance 1, .advance 1,
    .advance 0, .advance 0] ?_
  rfl

end SwissArmyHammer.Cache
