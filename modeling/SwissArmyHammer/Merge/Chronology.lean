import SwissArmyHammer.Merge.NewestWins
import SwissArmyHammer.Text.Decimal
import Mathlib.Data.Finset.Max

/-! The changelog's timestamps as texts and as instants: which entries the texts put after the
newest one. -/

namespace SwissArmyHammer.Merge

open Text Entities

section

def subsecond (nanos : Nat) : List Char :=
  if nanos = 0 then []
  else if nanos % 1000000 = 0 then padded 3 (nanos / 1000000)
  else if nanos % 1000 = 0 then padded 6 (nanos / 1000)
  else padded 9 nanos

def fraction (nanos : Nat) : List Char :=
  match subsecond nanos with
  | [] => []
  | c :: rest => '.' :: c :: rest

variable {m n : Nat} {c : Char}

theorem padded_subsecond (n : Nat) :
    ∃ zeros, padded 9 n = subsecond n ++ List.replicate zeros '0' := by
  unfold subsecond
  split
  · rename_i hzero
    exact ⟨9, by rw [hzero]; rfl⟩
  · split
    · rename_i hmilli
      refine ⟨6, ?_⟩
      rw [padded_add 3 6, padded_of_dvd (n := n) (k := 6) hmilli]
      rfl
    · split
      · rename_i hmicro
        refine ⟨3, ?_⟩
        rw [padded_add 6 3, padded_of_dvd (n := n) (k := 3) hmicro]
        rfl
      · exact ⟨0, (List.append_nil _).symm⟩

theorem mem_subsecond (h : c ∈ subsecond n) : '0' ≤ c ∧ c ≤ '9' := by
  obtain ⟨zeros, hpadded⟩ := padded_subsecond n
  have hmem : c ∈ padded 9 n := by
    rw [hpadded]
    exact List.mem_append_left _ h
  exact mem_padded hmem

theorem subsecond_inj (hm : m < 10 ^ 9) (hn : n < 10 ^ 9) (h : subsecond m = subsecond n) :
    m = n := by
  obtain ⟨zm, hzm⟩ := padded_subsecond m
  obtain ⟨zn, hzn⟩ := padded_subsecond n
  have hlm := congrArg List.length hzm
  have hln := congrArg List.length hzn
  rw [length_padded, List.length_append, List.length_replicate] at hlm hln
  have hz : zm = zn := by
    rw [h] at hlm
    omega
  apply padded_inj hm hn
  rw [hzm, hzn, h, hz]

theorem fraction_cons {p : List Char} {s : List Char} (h : subsecond n = p ++ c :: s) :
    fraction n = '.' :: (p ++ c :: s) := by
  unfold fraction
  rw [h]
  cases p with
  | nil => rfl
  | cons _ _ => rfl

theorem fraction_lt_of_prefix (h : subsecond m <+: subsecond n)
    (hne : subsecond m ≠ subsecond n) : fraction n ++ ['Z'] < fraction m ++ ['Z'] := by
  obtain ⟨rest, hrest⟩ := h
  cases rest with
  | nil =>
    rw [List.append_nil] at hrest
    exact absurd hrest hne
  | cons c rest =>
    have hc : c < 'Z' := by
      have hmem : c ∈ subsecond n := by
        rw [← hrest]
        exact List.mem_append_right _ List.mem_cons_self
      exact lt_of_le_of_lt (mem_subsecond hmem).2 (by decide)
    rw [fraction_cons hrest.symm]
    cases hm : subsecond m with
    | nil =>
      have hempty : fraction m = [] := by
        unfold fraction
        rw [hm]
      rw [hempty, List.cons_append]
      exact List.cons_lt_cons_iff.mpr (.inl (by decide))
    | cons d ds =>
      have hfraction : fraction m = '.' :: d :: ds := by
        unfold fraction
        rw [hm]
      have hlong : '.' :: ((d :: ds) ++ c :: rest) ++ ['Z'] =
          ('.' :: d :: ds) ++ c :: (rest ++ ['Z']) := by
        simp
      rw [hfraction, hlong]
      apply List.append_left_lt
      exact List.cons_lt_cons_iff.mpr (.inl hc)

theorem fraction_lt_of_not_prefix (hm : m < 10 ^ 9) (hn : n < 10 ^ 9) (hlt : m < n)
    (h : ¬ subsecond m <+: subsecond n) : fraction m ++ ['Z'] < fraction n ++ ['Z'] := by
  obtain ⟨zm, hzm⟩ := padded_subsecond m
  obtain ⟨zn, hzn⟩ := padded_subsecond n
  obtain ⟨p, c, d, s, t, hpm, hpn, hcd⟩ :=
    exists_first_difference ((padded_lt_iff hm hn).mpr hlt) (by simp)
  have hc : '0' ≤ c := by
    have hmem : c ∈ padded 9 m := by
      rw [hpm]
      exact List.mem_append_right _ List.mem_cons_self
    exact (mem_padded hmem).1
  have hlong : ∃ t', subsecond n = p ++ d :: t' := by
    rcases List.append_eq_append_iff.mp (hzn.symm.trans hpn) with ⟨q, hp, hz⟩ | ⟨q, hq, hz⟩
    · have hd : d = '0' := by
        apply List.eq_of_mem_replicate (n := zn)
        rw [hz]
        exact List.mem_append_right _ List.mem_cons_self
      exact absurd (lt_of_le_of_lt hc hcd) (hd ▸ lt_irrefl _)
    · cases q with
      | nil =>
        rw [List.nil_append] at hz
        have hd : d = '0' := by
          apply List.eq_of_mem_replicate (n := zn)
          rw [← hz]
          exact List.mem_cons_self
        exact absurd (lt_of_le_of_lt hc hcd) (hd ▸ lt_irrefl _)
      | cons e q =>
        obtain ⟨rfl, -⟩ := List.cons.inj hz
        exact ⟨q, hq⟩
  obtain ⟨t', hn'⟩ := hlong
  have hshort : ∃ s', subsecond m = p ++ c :: s' := by
    rcases List.append_eq_append_iff.mp (hzm.symm.trans hpm) with ⟨q, hp, -⟩ | ⟨q, hq, hz⟩
    · exact absurd ⟨q ++ d :: t', by rw [hn', hp, List.append_assoc]⟩ h
    · cases q with
      | nil =>
        rw [List.append_nil] at hq
        exact absurd ⟨d :: t', by rw [hn', hq]⟩ h
      | cons e q =>
        obtain ⟨rfl, -⟩ := List.cons.inj hz
        exact ⟨q, hq⟩
  obtain ⟨s', hm'⟩ := hshort
  rw [fraction_cons hm', fraction_cons hn', List.cons_append, List.cons_append, List.append_assoc,
    List.append_assoc]
  refine List.cons_lt_cons_iff.mpr (.inr ⟨rfl, ?_⟩)
  apply List.append_left_lt
  exact List.cons_lt_cons_iff.mpr (.inl hcd)

end

structure Instant where
  year : Nat
  month : Nat
  day : Nat
  hour : Nat
  minute : Nat
  second : Nat
  nanos : Nat
  year_lt : year < 10000
  month_le : month ≤ 12
  day_le : day ≤ 31
  hour_lt : hour < 24
  minute_lt : minute < 60
  second_le : second ≤ 60
  nanos_lt : nanos < 1000000000
  deriving DecidableEq

namespace Instant

def clock (i : Instant) : List Nat := [i.year, i.month, i.day, i.hour, i.minute, i.second]

def Older (i j : Instant) : Prop := i.clock < j.clock ∨ i.clock = j.clock ∧ i.nanos < j.nanos

def rfc3339 (i : Instant) : List Char :=
  padded 4 i.year ++ '-' :: (padded 2 i.month ++ '-' :: (padded 2 i.day ++ 'T' ::
    (padded 2 i.hour ++ ':' :: (padded 2 i.minute ++ ':' :: (padded 2 i.second ++
      (fraction i.nanos ++ ['Z']))))))

def Overtakes (i j : Instant) : Prop :=
  i.clock = j.clock ∧ subsecond i.nanos <+: subsecond j.nanos ∧
    subsecond i.nanos ≠ subsecond j.nanos

instance (i j : Instant) : Decidable (Overtakes i j) := inferInstanceAs (Decidable (_ ∧ _ ∧ _))

variable {i j : Instant}

theorem eq_of (hclock : i.clock = j.clock) (hnanos : i.nanos = j.nanos) : i = j := by
  obtain ⟨_, _, _, _, _, _, _, _, _, _, _, _, _, _⟩ := j
  obtain ⟨rfl, rfl, rfl, rfl, rfl, rfl⟩ := hclock
  obtain rfl := hnanos
  rfl

theorem older_trichotomy (i j : Instant) : i.Older j ∨ i = j ∨ j.Older i := by
  rcases lt_trichotomy i.clock j.clock with hlt | heq | hgt
  · exact .inl (.inl hlt)
  · rcases Nat.lt_trichotomy i.nanos j.nanos with hlt | hnanos | hgt
    · exact .inl (.inr ⟨heq, hlt⟩)
    · exact .inr (.inl (eq_of heq hnanos))
    · exact .inr (.inr (.inr ⟨heq.symm, hgt⟩))
  · exact .inr (.inr (.inl hgt))

theorem rfc3339_lt_iff : i.rfc3339 < j.rfc3339 ↔
    i.clock < j.clock ∨ i.clock = j.clock ∧
      fraction i.nanos ++ ['Z'] < fraction j.nanos ++ ['Z'] := by
  have hi := i.month_le
  have hj := j.month_le
  have hid := i.day_le
  have hjd := j.day_le
  have hih := i.hour_lt
  have hjh := j.hour_lt
  have him := i.minute_lt
  have hjm := j.minute_lt
  have his := i.second_le
  have hjs := j.second_le
  unfold rfc3339
  rw [padded_append_lt_iff i.year_lt j.year_lt, List.cons_lt_cons_iff,
    padded_append_lt_iff (by omega) (by omega), List.cons_lt_cons_iff,
    padded_append_lt_iff (by omega) (by omega), List.cons_lt_cons_iff,
    padded_append_lt_iff (by omega) (by omega), List.cons_lt_cons_iff,
    padded_append_lt_iff (by omega) (by omega), List.cons_lt_cons_iff,
    padded_append_lt_iff (by omega) (by omega)]
  simp only [clock, List.cons_lt_cons_iff, List.cons.injEq, lt_irrefl, false_or, true_and, and_true,
    and_false, or_false]
  tauto

theorem rfc3339_lt_of_older (h : i.Older j) (hnot : ¬ i.Overtakes j) : i.rfc3339 < j.rfc3339 := by
  rw [rfc3339_lt_iff]
  rcases h with hclock | ⟨hclock, hnanos⟩
  · exact .inl hclock
  · refine .inr ⟨hclock, ?_⟩
    apply fraction_lt_of_not_prefix i.nanos_lt j.nanos_lt hnanos
    intro hstarts
    apply hnot
    refine ⟨hclock, hstarts, fun heq => ?_⟩
    have hsame := subsecond_inj i.nanos_lt j.nanos_lt heq
    omega

theorem rfc3339_lt_of_overtakes (h : i.Overtakes j) : j.rfc3339 < i.rfc3339 := by
  rw [rfc3339_lt_iff]
  exact .inr ⟨h.1.symm, fraction_lt_of_prefix h.2.1 h.2.2⟩

theorem rfc3339_inj (h : i.rfc3339 = j.rfc3339) : i = j := by
  have hno : ∀ {i j : Instant}, i.Older j → i.rfc3339 ≠ j.rfc3339 := by
    intro i j holder heq
    by_cases hover : i.Overtakes j
    · exact absurd (rfc3339_lt_of_overtakes hover) (heq ▸ lt_irrefl _)
    · exact absurd (rfc3339_lt_of_older holder hover) (heq ▸ lt_irrefl _)
  rcases older_trichotomy i j with holder | heq | holder
  · exact absurd h (hno holder)
  · exact heq
  · exact absurd h.symm (hno holder)

end Instant

structure DatedEntry where
  instant : Instant
  changes : List FieldChange

def DatedEntry.toEntry (e : DatedEntry) : ChangelogEntry :=
  ⟨String.ofList e.instant.rfc3339, e.changes⟩

abbrev Setting := Instant × Json

def valueIn (field : String) (c : FieldChange) : Option Json :=
  if c.field = field then c.newValue else none

def settingOf (field : String) (e : DatedEntry) : Option Setting :=
  (e.changes.findSome? (valueIn field)).map fun v => (e.instant, v)

def settings (field : String) (entries : List DatedEntry) : List Setting :=
  entries.filterMap (settingOf field)

instance (i j : Instant) : Decidable (i.Older j) := inferInstanceAs (Decidable (_ ∨ _ ∧ _))

def newestOf : List Setting → Option Setting
  | [] => none
  | r :: rest =>
    match newestOf rest with
    | none => some r
    | some best => if best.1.Older r.1 then some r else some best

section

variable (J : SerdeJson) {field : String} {rs : List Setting} {r m newest : Setting}
  {entries : List DatedEntry}

/-- The recorded values are those of the newest settings, in whatever order the entries come. -/
def PicksNewest (entries : List DatedEntry) : Prop :=
  (∀ field, (latestValueTimestamps J (entries.map DatedEntry.toEntry))[field]?.map Prod.fst =
      (newestOf (settings field entries)).map fun r => loggedText J r.2) ∧
    ∀ others : List DatedEntry, others.Perm entries →
      latestValueTimestamps J (others.map DatedEntry.toEntry) =
        latestValueTimestamps J (entries.map DatedEntry.toEntry)

/-- Where some settings overtake the newest one, the one with the fewest digits has its value. -/
def OvertakersAgree (entries : List DatedEntry) : Prop :=
  ∀ field newest, newestOf (settings field entries) = some newest →
    ∀ r ∈ settings field entries, r.1.Overtakes newest.1 →
      (∀ other ∈ settings field entries, other.1.Overtakes newest.1 →
        (subsecond r.1.nanos).length ≤ (subsecond other.1.nanos).length) →
      loggedText J r.2 = loggedText J newest.2

theorem newestOf_eq_none : newestOf rs = none ↔ rs = [] := by
  cases rs with
  | nil => exact ⟨fun _ => rfl, fun _ => rfl⟩
  | cons r rest =>
    constructor
    · intro h
      rw [newestOf] at h
      split at h
      · cases h
      · split at h <;> cases h
    · intro h
      cases h

theorem Instant.Older.trans {i j k : Instant} (hij : i.Older j) (hjk : j.Older k) : i.Older k := by
  rcases hij with hij | ⟨hij, hnij⟩
  · rcases hjk with hjk | ⟨hjk, -⟩
    · exact .inl (lt_trans hij hjk)
    · exact .inl (hjk ▸ hij)
  · rcases hjk with hjk | ⟨hjk, hnjk⟩
    · exact .inl (hij ▸ hjk)
    · exact .inr ⟨hij.trans hjk, lt_trans hnij hnjk⟩

theorem newestOf_spec (h : newestOf rs = some newest) :
    newest ∈ rs ∧ ∀ r ∈ rs, r.1 = newest.1 ∨ r.1.Older newest.1 := by
  induction rs generalizing newest with
  | nil => cases h
  | cons s rest ih =>
    rw [newestOf] at h
    split at h
    · rename_i hnone
      obtain rfl := Option.some.inj h
      rw [newestOf_eq_none.mp hnone]
      refine ⟨List.mem_cons_self, fun r hr => ?_⟩
      rw [List.mem_singleton.mp hr]
      exact .inl rfl
    · rename_i best hbest
      obtain ⟨hmem, hall⟩ := ih hbest
      split at h
      · rename_i holder
        obtain rfl := Option.some.inj h
        refine ⟨List.mem_cons_self, fun r hr => ?_⟩
        rcases List.mem_cons.mp hr with rfl | hr
        · exact .inl rfl
        · rcases hall r hr with heq | hlt
          · rw [heq]
            exact .inr holder
          · exact .inr (hlt.trans holder)
      · rename_i holder
        obtain rfl := Option.some.inj h
        refine ⟨List.mem_cons_of_mem _ hmem, fun r hr => ?_⟩
        rcases List.mem_cons.mp hr with rfl | hr
        · rcases Instant.older_trichotomy r.1 best.1 with hlt | heq | hgt
          · exact .inr hlt
          · exact .inl heq
          · exact absurd hgt holder
        · exact hall r hr

def Wins (rs : List Setting) (m : Setting) : Prop :=
  m ∈ rs ∧ ∀ r ∈ rs, r ≠ m → r.1.rfc3339 < m.1.rfc3339

theorem Wins.unique (h : Wins rs m) (h' : Wins rs r) : m = r := by
  by_contra hne
  exact absurd (h'.2 m h.1 hne) (lt_asymm (h.2 r h'.1 (Ne.symm hne)))

theorem foldl_later_same (ts : String) (values : List Json) (best : Option (String × Json)) :
    (values.map fun v => (ts, v)).foldl later best =
      (values.head?.map fun v => (ts, v)).toList.foldl later best := by
  have hstay : ∀ (values : List Json) (b : String × Json), ¬ b.1 < ts →
      (values.map fun v => (ts, v)).foldl later (some b) = some b := by
    intro values b hb
    induction values with
    | nil => rfl
    | cons v values ih =>
      rw [List.map_cons, List.foldl_cons, later, if_neg hb]
      exact ih
  cases values with
  | nil => rfl
  | cons v values =>
    have hfirst : ∃ b, later best (ts, v) = some b ∧ ¬ b.1 < ts := by
      cases best with
      | none => exact ⟨(ts, v), rfl, lt_irrefl ts⟩
      | some b =>
        rw [later]
        split
        · exact ⟨(ts, v), rfl, lt_irrefl ts⟩
        · rename_i hb
          exact ⟨b, rfl, hb⟩
    obtain ⟨b, hb, hle⟩ := hfirst
    rw [List.map_cons, List.foldl_cons, hb, hstay values b hle]
    exact hb.symm

def texted (r : Setting) : String × Json := (String.ofList r.1.rfc3339, r.2)

theorem foldl_later_records (entries : List DatedEntry) (best : Option (String × Json)) :
    (recordsOf field (entries.map DatedEntry.toEntry)).foldl later best =
      ((settings field entries).map texted).foldl later best := by
  induction entries generalizing best with
  | nil => rfl
  | cons e rest ih =>
    have hblock : (e.changes.filterMap fun c => if c.field = field then
        c.newValue.map fun v => (String.ofList e.instant.rfc3339, v) else none) =
        (e.changes.filterMap (valueIn field)).map fun v => (String.ofList e.instant.rfc3339, v) := by
      rw [List.map_filterMap]
      congr 1
      funext c
      rw [valueIn]
      split
      · rfl
      · rfl
    have hrecords : recordsOf field ((e :: rest).map DatedEntry.toEntry) =
        (e.changes.filterMap fun c => if c.field = field then
          c.newValue.map fun v => (String.ofList e.instant.rfc3339, v) else none) ++
          recordsOf field (rest.map DatedEntry.toEntry) :=
      List.flatMap_cons
    have hsettings : (settings field (e :: rest)).map texted =
        ((e.changes.filterMap (valueIn field)).head?.map fun v =>
          (String.ofList e.instant.rfc3339, v)).toList ++ (settings field rest).map texted := by
      rw [settings, List.filterMap_cons, settingOf, List.head?_filterMap]
      cases e.changes.findSome? (valueIn field) with
      | none => rfl
      | some v => rfl
    rw [hrecords, hblock, List.foldl_append, foldl_later_same, ih, hsettings, List.foldl_append]

theorem latest_of_wins (h : Wins (settings field entries) m) :
    (latestValueTimestamps J (entries.map DatedEntry.toEntry))[field]? =
      some (loggedText J m.2, String.ofList m.1.rfc3339) := by
  have hget := @latestValueTimestamps_get J field (entries.map DatedEntry.toEntry)
  rw [← foldl_later, foldl_later_records, foldl_later] at hget
  have hmax : ((settings field entries).map texted).argmax Prod.fst = some (texted m) := by
    classical
    rw [List.argmax_eq_some_iff]
    have hle : ∀ a ∈ (settings field entries).map texted, a = texted m ∨ a.1 < (texted m).1 := by
      intro a ha
      obtain ⟨r, hr, rfl⟩ := List.mem_map.mp ha
      by_cases heq : r = m
      · exact .inl (heq ▸ rfl)
      · right
        change String.ofList r.1.rfc3339 < String.ofList m.1.rfc3339
        rw [String.lt_iff_toList_lt, String.toList_ofList, String.toList_ofList]
        exact h.2 r hr heq
    refine ⟨List.mem_map_of_mem h.1, fun a ha => ?_, fun a ha hge => ?_⟩
    · grind
    · grind
  rw [hmax] at hget
  exact hget

theorem latest_of_nil (h : settings field entries = []) :
    (latestValueTimestamps J (entries.map DatedEntry.toEntry))[field]? = none := by
  have hget := @latestValueTimestamps_get J field (entries.map DatedEntry.toEntry)
  rw [← foldl_later, foldl_later_records, h] at hget
  exact hget

def DistinctInstants (rs : List Setting) : Prop := ∀ r ∈ rs, ∀ s ∈ rs, r.1 = s.1 → r = s

theorem distinct_settings (h : (entries.map DatedEntry.instant).Nodup) (field : String) :
    DistinctInstants (settings field entries) := by
  intro r hr s hs heq
  obtain ⟨e, he, hre⟩ := List.mem_filterMap.mp hr
  obtain ⟨e', he', hse⟩ := List.mem_filterMap.mp hs
  have hinstant : ∀ {e : DatedEntry} {r : Setting}, settingOf field e = some r →
      r.1 = e.instant := by
    intro e r h
    obtain ⟨v, -, rfl⟩ := Option.map_eq_some_iff.mp h
    rfl
  have hsame : e = e' := by
    apply List.inj_on_of_nodup_map h he he'
    rw [← hinstant hre, ← hinstant hse, heq]
  subst hsame
  exact Option.some.inj (hre.symm.trans hse)

theorem exists_wins (hdistinct : DistinctInstants rs) (hne : rs ≠ []) : ∃ m, Wins rs m := by
  classical
  obtain ⟨m, hm, hmax⟩ := rs.toFinset.exists_max_image (fun r => r.1.rfc3339)
    ((List.toFinset_nonempty_iff rs).mpr hne)
  have hmem : m ∈ rs := List.mem_toFinset.mp hm
  refine ⟨m, hmem, fun r hr hrm => ?_⟩
  apply lt_of_le_of_ne (hmax r (List.mem_toFinset.mpr hr))
  intro heq
  exact hrm (hdistinct r hr m hmem (Instant.rfc3339_inj heq))

theorem wins_newest (hdistinct : DistinctInstants rs) (hnewest : newestOf rs = some newest)
    (h : ∀ r ∈ rs, ¬ r.1.Overtakes newest.1) : Wins rs newest := by
  obtain ⟨hmem, hall⟩ := newestOf_spec hnewest
  refine ⟨hmem, fun r hr hne => ?_⟩
  rcases hall r hr with heq | holder
  · exact absurd (hdistinct r hr newest hmem heq) hne
  · exact Instant.rfc3339_lt_of_older holder (h r hr)

theorem wins_shortest (hdistinct : DistinctInstants rs) (hnewest : newestOf rs = some newest)
    (hr : r ∈ rs) (hover : r.1.Overtakes newest.1)
    (hfewest : ∀ other ∈ rs, other.1.Overtakes newest.1 →
      (subsecond r.1.nanos).length ≤ (subsecond other.1.nanos).length) : Wins rs r := by
  obtain ⟨hmem, hall⟩ := newestOf_spec hnewest
  refine ⟨hr, fun other hother hne => ?_⟩
  by_cases hover' : other.1.Overtakes newest.1
  · have hstarts : subsecond r.1.nanos <+: subsecond other.1.nanos :=
      List.prefix_of_prefix_length_le hover.2.1 hover'.2.1 (hfewest other hother hover')
    apply Instant.rfc3339_lt_of_overtakes
    refine ⟨hover.1.trans hover'.1.symm, hstarts, fun heq => hne ?_⟩
    apply hdistinct other hother r hr
    apply Instant.eq_of (hover'.1.trans hover.1.symm)
    exact (subsecond_inj r.1.nanos_lt other.1.nanos_lt heq).symm
  · have hlt : newest.1.rfc3339 < r.1.rfc3339 := Instant.rfc3339_lt_of_overtakes hover
    rcases hall other hother with heq | holder
    · rw [heq]
      exact hlt
    · exact lt_trans (Instant.rfc3339_lt_of_older holder hover') hlt

theorem latest_perm (hdistinct : (entries.map DatedEntry.instant).Nodup)
    {others : List DatedEntry} (hperm : others.Perm entries) :
    latestValueTimestamps J (others.map DatedEntry.toEntry) =
      latestValueTimestamps J (entries.map DatedEntry.toEntry) := by
  apply Std.ExtTreeMap.ext_getElem?
  intro field
  have hsettings : (settings field others).Perm (settings field entries) := hperm.filterMap _
  by_cases hne : settings field entries = []
  · have hnil : settings field others = [] := List.Perm.eq_nil (hne ▸ hsettings)
    rw [latest_of_nil J hne, latest_of_nil J hnil]
  · obtain ⟨m, hm⟩ := exists_wins (distinct_settings hdistinct field) hne
    have hm' : Wins (settings field others) m :=
      ⟨hsettings.mem_iff.mpr hm.1, fun r hr => hm.2 r (hsettings.mem_iff.mp hr)⟩
    rw [latest_of_wins J hm, latest_of_wins J hm']

/-- The newest values are picked exactly when the overtakers agree. -/
theorem picksNewest_iff (hdistinct : (entries.map DatedEntry.instant).Nodup) :
    PicksNewest J entries ↔ OvertakersAgree J entries := by
  constructor
  · intro h field newest hnewest r hr hover hfewest
    have hwins := wins_shortest (distinct_settings hdistinct field) hnewest hr hover hfewest
    have hpick := h.1 field
    rw [latest_of_wins J hwins, hnewest] at hpick
    exact Option.some.inj hpick
  · intro h
    refine ⟨fun field => ?_, fun others hperm => latest_perm J hdistinct hperm⟩
    have hfield := distinct_settings hdistinct field
    cases hnewest : newestOf (settings field entries) with
    | none =>
      rw [latest_of_nil J (newestOf_eq_none.mp hnewest)]
      rfl
    | some newest =>
      obtain ⟨hmem, -⟩ := newestOf_spec hnewest
      obtain ⟨m, hm⟩ := exists_wins hfield (List.ne_nil_of_mem hmem)
      rw [latest_of_wins J hm]
      apply congrArg some
      by_cases hover : m.1.Overtakes newest.1
      · apply h field newest hnewest m hm.1 hover
        intro other hother hover'
        by_contra hlonger
        have hstarts : subsecond other.1.nanos <+: subsecond m.1.nanos :=
          List.prefix_of_prefix_length_le hover'.2.1 hover.2.1 (by omega)
        have hlt : m.1.rfc3339 < other.1.rfc3339 := by
          apply Instant.rfc3339_lt_of_overtakes
          refine ⟨hover'.1.trans hover.1.symm, hstarts, fun heq => hlonger ?_⟩
          rw [heq]
        have hne : other ≠ m := fun heq => absurd hlt (heq ▸ lt_irrefl _)
        exact absurd hlt (lt_asymm (hm.2 other hother hne))
      · have hall : ∀ r ∈ settings field entries, ¬ r.1.Overtakes newest.1 := by
          intro r hr hover'
          have hlt : newest.1.rfc3339 < r.1.rfc3339 := Instant.rfc3339_lt_of_overtakes hover'
          have hne : newest ≠ m := by
            intro heq
            rw [heq] at hlt
            have hne : r ≠ m := fun heq => absurd hlt (heq ▸ lt_irrefl _)
            exact absurd hlt (lt_asymm (hm.2 r hr hne))
          have hnewer : newest.1.rfc3339 < m.1.rfc3339 := hm.2 newest hmem hne
          rcases (newestOf_spec hnewest).2 m hm.1 with heq | holder
          · exact hne (hfield newest hmem m hm.1 heq.symm)
          · exact absurd hnewer (lt_asymm (Instant.rfc3339_lt_of_older holder hover))
        rw [hm.unique (wins_newest hfield hnewest hall)]

end

def atNanos (nanos : Nat) (h : nanos < 1000000000) : Instant where
  year := 2026
  month := 3
  day := 1
  hour := 12
  minute := 0
  second := 0
  nanos := nanos
  year_lt := by decide
  month_le := by decide
  day_le := by decide
  hour_lt := by decide
  minute_lt := by decide
  second_le := by decide
  nanos_lt := h

example : String.ofList (atNanos 500000000 (by decide)).rfc3339 = "2026-03-01T12:00:00.500Z" := by
  decide

def titled (nanos : Nat) (h : nanos < 1000000000) (title : String) : DatedEntry :=
  ⟨atNanos nanos h, [⟨"title", some (.string title)⟩]⟩

def nullJson : SerdeJson := ⟨fun _ => none, fun _ => "null"⟩

def millis : List DatedEntry :=
  [titled 250000000 (by decide) "walls", titled 500000000 (by decide) "roof"]

theorem nodup_millis : (millis.map DatedEntry.instant).Nodup := by decide

theorem picksNewest_millis : PicksNewest nullJson millis := by
  refine (picksNewest_iff nullJson nodup_millis).mpr fun field newest hnewest r hr hover _ => ?_
  have hlength : ∀ r ∈ settings field millis, (subsecond r.1.nanos).length = 3 := by
    intro r hr
    obtain ⟨e, he, hre⟩ := List.mem_filterMap.mp hr
    obtain ⟨v, -, rfl⟩ := Option.map_eq_some_iff.mp hre
    rcases List.mem_pair.mp he with rfl | rfl
    · exact (by decide : (subsecond 250000000).length = 3)
    · exact (by decide : (subsecond 500000000).length = 3)
  have hsame := hover.2.1.eq_of_length
    ((hlength r hr).trans (hlength newest (newestOf_spec hnewest).1).symm)
  exact absurd hsame hover.2.2

theorem whole_second_recorded : ∃ entries : List DatedEntry,
    (entries.map DatedEntry.instant).Nodup ∧ ¬ PicksNewest nullJson entries := by
  refine ⟨[titled 0 (by decide) "walls", titled 500000000 (by decide) "roof"], by decide,
    fun h => ?_⟩
  have hwins : Wins (settings "title" [titled 0 (by decide) "walls",
      titled 500000000 (by decide) "roof"]) (atNanos 0 (by decide), .string "walls") := by
    refine ⟨List.mem_cons_self, fun r hr hne => ?_⟩
    rcases List.mem_pair.mp hr with rfl | rfl
    · exact absurd rfl hne
    · exact Instant.rfc3339_lt_of_overtakes (by decide)
  have hpick := h.1 "title"
  rw [latest_of_wins nullJson hwins] at hpick
  revert hpick
  decide

end SwissArmyHammer.Merge
