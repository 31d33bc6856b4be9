import SwissArmyHammer.Common.Walks

/-! A search that goes down to a depth and shares what it has visited between its branches. Each
node that it shows stands at its own distance if no branch leads to a node the long way round
before a shortest walk to it comes. -/

namespace SwissArmyHammer.DepthFirst

open Walks

variable {α β : Type} {next : α → List α} {s x y z : α} {p q t w : List α} {d : Nat}

def Earlier (l : List α) (a b : α) : Prop :=
  ∃ pre post, l = pre ++ b :: post ∧ b ∉ pre ∧ a ∈ pre

def UpTo (next : α → List α) : α → List α → List α → Prop
  | _, [], _ => True
  | _, _ :: _, [] => False
  | s, a :: w, b :: p => (a = b ∧ UpTo next a w p) ∨ Earlier (next s) a b

theorem earlier_ne {l : List α} {a b : α} (h : Earlier l a b) : a ≠ b := by
  obtain ⟨pre, post, -, hb, ha⟩ := h
  rintro rfl
  exact hb ha

theorem earlier_iff_mem {done rest : List α} {a : α} (hy : y ∉ done) :
    Earlier (done ++ y :: rest) a y ↔ a ∈ done := by
  constructor
  · rintro ⟨pre, post, hsplit, hpre, ha⟩
    have heq : done = pre := by
      rcases List.append_eq_append_iff.mp hsplit with ⟨more, rfl, hmore⟩ | ⟨more, rfl, hmore⟩
      · cases more with
        | nil => simp
        | cons c more =>
          obtain ⟨rfl, -⟩ := List.cons.inj hmore
          simp at hpre
      · cases more with
        | nil => simp
        | cons c more =>
          obtain ⟨rfl, -⟩ := List.cons.inj hmore
          simp at hy
    exact heq ▸ ha
  · exact fun ha => ⟨done, rest, rfl, hy, ha⟩

theorem upTo_self (s : α) (p : List α) : UpTo next s p p := by
  induction p generalizing s with
  | nil => trivial
  | cons a p ih => exact .inl ⟨rfl, ih a⟩

theorem not_upTo_extension (a : α) : ¬ UpTo next s (p ++ a :: t) p := by
  induction p generalizing s with
  | nil => exact id
  | cons b p ih =>
    rintro (⟨-, h⟩ | h)
    · exact ih h
    · exact earlier_ne h rfl

theorem UpTo.append_of_longer (h : UpTo next s w p) (hlen : p.length < w.length) (t : List α) :
    UpTo next s (w ++ t) p := by
  induction w generalizing s p with
  | nil => simp at hlen
  | cons a w ih =>
    cases p with
    | nil => exact h.elim
    | cons b p =>
      rcases h with ⟨rfl, h⟩ | h
      · exact .inl ⟨rfl, ih h (by simpa using hlen)⟩
      · exact .inr h

theorem UpTo.append_append (h : UpTo next s w p) (hlen : w.length = p.length) (t : List α) :
    UpTo next s (w ++ t) (p ++ t) := by
  induction w generalizing s p with
  | nil =>
    rw [List.eq_nil_of_length_eq_zero hlen.symm]
    exact upTo_self s t
  | cons a w ih =>
    cases p with
    | nil => exact h.elim
    | cons b p =>
      rcases h with ⟨rfl, h⟩ | h
      · exact .inl ⟨rfl, ih h (by simpa using hlen)⟩
      · exact .inr h

theorem upTo_snoc (hp : Walk next s p x) :
    UpTo next s w (p ++ [y]) ↔
      UpTo next s w p ∨ w = p ++ [y] ∨ ∃ a, Earlier (next x) a y ∧ p ++ [a] <+: w := by
  induction p generalizing s w with
  | nil =>
    obtain rfl : x = s := hp
    cases w with
    | nil => simp [UpTo]
    | cons a w =>
      have hnil : UpTo next a w [] ↔ w = [] := by cases w <;> simp [UpTo]
      simp only [List.nil_append, UpTo, hnil, false_or, List.cons.injEq, List.cons_prefix_cons,
        List.nil_prefix, and_true]
      exact or_congr Iff.rfl ⟨fun h => ⟨a, h, rfl⟩, fun ⟨c, h, hc⟩ => hc ▸ h⟩
  | cons b p ih =>
    cases w with
    | nil => simp [UpTo]
    | cons a w =>
      simp only [List.cons_append, UpTo, List.cons.injEq, List.cons_prefix_cons]
      by_cases hab : a = b
      · subst hab
        have hno : ¬ Earlier (next s) a a := fun h => earlier_ne h rfl
        simp only [hno, or_false, true_and]
        exact ih hp.2
      · simp [hab, Ne.symm hab]

structure Shortest (next : α → List α) (s : α) (p : List α) (x : α) : Prop where
  walk : Walk next s p x
  least : ∀ q, Walk next s q x → p.length ≤ q.length

structure FirstShortest (next : α → List α) (s : α) (p : List α) (x : α) : Prop
    extends Shortest next s p x where
  first : ∀ w, Shortest next s w x → UpTo next s w p → w = p

theorem Shortest.length_eq (h : Shortest next s p x) (h' : Shortest next s q x) :
    p.length = q.length :=
  Nat.le_antisymm (h.least q h'.walk) (h'.least p h.walk)

theorem Shortest.atDistance (h : Shortest next s p x) : AtDistance next [s] p.length x := by
  refine ⟨⟨s, List.mem_singleton_self s, p, h.walk, rfl⟩, fun j hj hnear => ?_⟩
  obtain ⟨r, hr, q, hq, rfl⟩ := hnear
  rw [List.mem_singleton.mp hr] at hq
  exact absurd (h.least q hq) (by omega)

theorem exists_shortest {k : Nat} (h : AtDistance next [s] k x) :
    ∃ p, Shortest next s p x ∧ p.length = k := by
  obtain ⟨⟨r, hr, p, hp, hlen⟩, hleast⟩ := h
  rw [List.mem_singleton.mp hr] at hp
  refine ⟨p, ⟨hp, fun q hq => ?_⟩, hlen⟩
  by_contra hlt
  exact hleast q.length (by omega) ⟨s, List.mem_singleton_self s, q, hq, rfl⟩

theorem Shortest.append_of_shortest (h : Shortest next s (p ++ t) z) (hp : Walk next s p y)
    (hw : Shortest next s w y) : Shortest next s (w ++ t) z := by
  obtain ⟨m, hm, ht⟩ := walk_append.mp h.walk
  obtain rfl := hp.unique hm
  have hlen := hw.least p hp
  refine ⟨walk_append.mpr ⟨y, hw.walk, ht⟩, fun q hq => ?_⟩
  have hle := h.least q hq
  rw [List.length_append] at hle ⊢
  omega

theorem Shortest.initial (h : Shortest next s (p ++ t) z) (hp : Walk next s p y) :
    Shortest next s p y := by
  obtain ⟨m, hm, ht⟩ := walk_append.mp h.walk
  obtain rfl := hp.unique hm
  refine ⟨hp, fun q hq => ?_⟩
  have hle := h.least (q ++ t) (walk_append.mpr ⟨y, hq, ht⟩)
  rw [List.length_append, List.length_append] at hle
  omega

theorem FirstShortest.initial (h : FirstShortest next s (p ++ t) z) (hp : Walk next s p y) :
    FirstShortest next s p y where
  toShortest := h.toShortest.initial hp
  first w hw hupTo := by
    have hlen := hw.length_eq (h.toShortest.initial hp)
    have hall := h.first (w ++ t) (h.toShortest.append_of_shortest hp hw)
      (hupTo.append_append hlen t)
    exact List.append_cancel_right hall

theorem firstShortest_nil (s : α) : FirstShortest next s [] s where
  walk := rfl
  least _ _ := Nat.zero_le _
  first _ hw _ := List.eq_nil_of_length_eq_zero (Nat.le_zero.mp (hw.least [] rfl))

/-- Where the first shortest walk goes by a node that is no farther than its end, a shortest walk
to that node has come before. -/
def Orderly (next : α → List α) (s : α) (d : Nat) : Prop :=
  ∀ p x y, FirstShortest next s p x → p.length < d → y ∈ next x →
    (∃ w, Walk next s w y ∧ w.length ≤ p.length) → ∃ w, Shortest next s w y ∧ UpTo next s w p

section

variable [DecidableEq α]

def exploreEach (below : α → List α → List (Nat × β) × List α) (key : β → α) (depth : Nat) :
    List β → List α → List (Nat × β) × List α
  | [], visited => ([], visited)
  | b :: bs, visited =>
    if key b ∈ visited then exploreEach below key depth bs visited
    else
      let sub := below (key b) (visited ++ [key b])
      let rest := exploreEach below key depth bs sub.2
      ((depth, b) :: (sub.1 ++ rest.1), rest.2)

def explore (found : α → List β) (key : β → α) : Nat → Nat → α → List α → List (Nat × β) × List α
  | 0, _, _, visited => ([], visited)
  | left + 1, depth, x, visited =>
    exploreEach (explore found key left (depth + 1)) key depth (found x) visited

variable {below : α → List α → List (Nat × β) × List α} {found : α → List β} {key : β → α}
  {bs : List β} {visited : List α} {b : β} {left depth k : Nat}

def Counts (key : β → α) (visited : List α) (out : List (Nat × β) × List α) : Prop :=
  ∀ z, z ∈ out.2 ↔ z ∈ visited ∨ ∃ e ∈ out.1, key e.2 = z

theorem counts_exploreEach (hbelow : ∀ x visited, Counts key visited (below x visited))
    (bs : List β) (visited : List α) :
    Counts key visited (exploreEach below key depth bs visited) := by
  induction bs generalizing visited with
  | nil => simp [Counts, exploreEach]
  | cons c bs ih =>
    intro z
    rw [exploreEach]
    split
    · exact ih visited z
    · have hsub := hbelow (key c) (visited ++ [key c]) z
      have hrest := ih (below (key c) (visited ++ [key c])).2 z
      simp only [hrest, hsub, List.mem_append, List.mem_cons, List.not_mem_nil, or_false]
      grind

theorem counts_explore (left depth : Nat) (x : α) (visited : List α) :
    Counts key visited (explore found key left depth x visited) := by
  induction left generalizing depth x visited with
  | zero => simp [Counts, explore]
  | succ left ih => exact counts_exploreEach (fun x visited => ih (depth + 1) x visited) _ _

theorem mem_exploreEach_of_mem (hbelow : ∀ x visited, Counts key visited (below x visited))
    (hb : b ∈ bs) : key b ∈ (exploreEach below key depth bs visited).2 := by
  induction bs generalizing visited with
  | nil => simp at hb
  | cons c bs ih =>
    have hcounts : ∀ bs visited, Counts key visited (exploreEach below key depth bs visited) :=
      counts_exploreEach hbelow
    rw [exploreEach]
    rcases List.mem_cons.mp hb with rfl | hb
    · split
      · rename_i hold
        exact (hcounts bs visited _).mpr (.inl hold)
      · refine (hcounts bs _ _).mpr (.inl ?_)
        exact (hbelow _ _ _).mpr (.inl (by simp))
    · split
      · exact ih hb
      · exact ih hb

theorem le_of_mem_explore {e : Nat × β} (h : e ∈ (explore found key left depth x visited).1) :
    depth ≤ e.1 ∧ e.1 < depth + left := by
  induction left generalizing depth x visited with
  | zero => simp [explore] at h
  | succ left ih =>
    rw [explore] at h
    generalize found x = bs at h
    induction bs generalizing visited with
    | nil => simp [exploreEach] at h
    | cons c bs ihbs =>
      rw [exploreEach] at h
      split_ifs at h with hold
      · exact ihbs h
      · grind

theorem first_of_mem_exploreEach (hbelow : ∀ x visited, Counts key visited (below x visited))
    (hdeeper : ∀ x visited, ∀ e ∈ (below x visited).1, depth < e.1)
    (h : (depth, b) ∈ (exploreEach below key depth bs visited).1) :
    key b ∉ visited ∧ ∃ pre post, bs = pre ++ b :: post ∧ ∀ c ∈ pre, key c ≠ key b := by
  induction bs generalizing visited with
  | nil => simp [exploreEach] at h
  | cons c bs ih =>
    rw [exploreEach] at h
    split_ifs at h with hold
    · grind
    · rcases List.mem_cons.mp h with heq | h
      · obtain ⟨-, rfl⟩ := Prod.mk.inj heq
        exact ⟨hold, [], bs, rfl, by simp⟩
      · rcases List.mem_append.mp h with h | h
        · exact absurd (hdeeper _ _ _ h) (Nat.lt_irrefl depth)
        · obtain ⟨hnew, pre, post, rfl, hpre⟩ := ih h
          rw [hbelow] at hnew
          simp only [List.mem_append, List.mem_singleton, not_or] at hnew
          refine ⟨hnew.1.1, c :: pre, post, rfl, fun a ha heq => ?_⟩
          rcases List.mem_cons.mp ha with rfl | ha
          · exact hnew.1.2 heq.symm
          · exact hpre a ha heq

end

def Inv (next : α → List α) (s : α) (d : Nat) (p done visited : List α) : Prop :=
  ∀ z, z ∈ visited ↔ ∃ w, Shortest next s w z ∧ w.length ≤ d ∧
    (UpTo next s w p ∨ ∃ a ∈ done, p ++ [a] <+: w)

section

variable {done rest visited : List α}

theorem inv_start : Inv next s d [] [] [s] := by
  intro z
  rw [List.mem_singleton]
  constructor
  · rintro rfl
    exact ⟨[], (firstShortest_nil z).toShortest, Nat.zero_le d, .inl trivial⟩
  · rintro ⟨w, hw, -, hupTo | ⟨a, ha, -⟩⟩
    · cases w with
      | nil => exact hw.walk
      | cons a w => exact hupTo.elim
    · simp at ha

theorem Inv.skip (h : Inv next s d p done visited) (hp : Walk next s p x) (hy : y ∈ next x)
    (hold : y ∈ visited) : Inv next s d p (done ++ [y]) visited := by
  intro z
  rw [h z]
  constructor
  · grind
  · rintro ⟨w, hw, hlen, hupTo | ⟨a, ha, hpre⟩⟩
    · exact ⟨w, hw, hlen, .inl hupTo⟩
    · rcases List.mem_append.mp ha with ha | ha
      · exact ⟨w, hw, hlen, .inr ⟨a, ha, hpre⟩⟩
      · -- the walk goes on where another shortest walk to `y` has been before
        rw [List.mem_singleton.mp ha] at hpre
        obtain ⟨t, rfl⟩ := hpre
        have hyWalk := hp.snoc hy
        obtain ⟨v, hv, -, hseen⟩ := (h y).mp hold
        have hvlen := hv.length_eq (hw.initial hyWalk)
        rcases hseen with hupTo | ⟨a, ha, hpre⟩
        · have hlonger : p.length < v.length := by
            rw [hvlen, List.length_append, List.length_singleton]
            omega
          refine ⟨v ++ t, hw.append_of_shortest hyWalk hv, ?_,
            .inl (hupTo.append_of_longer hlonger t)⟩
          rw [List.length_append] at hlen ⊢
          omega
        · have heq : p ++ [a] = v := hpre.eq_of_length (by simp [hvlen])
          obtain ⟨hay, -⟩ := walk_snoc.mp (heq ▸ hv.walk)
          exact ⟨_, hw, hlen, .inr ⟨a, ha, hay ▸ List.prefix_append _ t⟩⟩

theorem Inv.enter (h : Inv next s d p done visited) (hp : Walk next s p x)
    (hsplit : next x = done ++ y :: rest) (hnew : y ∉ visited)
    (hshort : Shortest next s (p ++ [y]) y) (hlen : p.length < d) :
    y ∉ done ∧ FirstShortest next s (p ++ [y]) y ∧
      Inv next s d (p ++ [y]) [] (visited ++ [y]) := by
  have hfit : (p ++ [y]).length ≤ d := by
    rw [List.length_append, List.length_singleton]
    omega
  have hdone : y ∉ done := fun hmem =>
    hnew ((h y).mpr ⟨_, hshort, hfit, .inr ⟨y, hmem, List.prefix_rfl⟩⟩)
  have hupTo : ∀ w, UpTo next s w (p ++ [y]) ↔
      w = p ++ [y] ∨ UpTo next s w p ∨ ∃ a ∈ done, p ++ [a] <+: w := by
    intro w
    rw [upTo_snoc hp, hsplit]
    simp only [earlier_iff_mem hdone]
    rw [or_left_comm]
  refine ⟨hdone, ⟨hshort, fun w hw hbefore => ?_⟩, fun z => ?_⟩
  · rcases (hupTo w).mp hbefore with heq | hseen
    · exact heq
    · exact absurd ((h y).mpr ⟨w, hw, hw.length_eq hshort ▸ hfit, hseen⟩) hnew
  · rw [List.mem_append, List.mem_singleton, h z]
    constructor
    · grind
    · rintro ⟨w, hw, hlen, hseen | ⟨a, ha, -⟩⟩
      · rcases (hupTo w).mp hseen with rfl | hseen
        · exact .inr (hw.walk.unique hshort.walk)
        · exact .inl ⟨w, hw, hlen, hseen⟩
      · simp at ha

theorem Inv.leave (h : Inv next s d (p ++ [y]) (next y) visited) (hp : Walk next s p x)
    (hsplit : next x = done ++ y :: rest) (hdone : y ∉ done) :
    Inv next s d p (done ++ [y]) visited := by
  intro z
  rw [h z]
  refine exists_congr fun w => and_congr_right fun hw => and_congr_right fun _ => ?_
  rw [upTo_snoc hp, hsplit]
  simp only [earlier_iff_mem hdone]
  constructor
  · rintro ((hupTo | rfl | ⟨a, ha, hpre⟩) | ⟨a, -, hpre⟩)
    · exact .inl hupTo
    · exact .inr ⟨y, by simp, List.prefix_rfl⟩
    · exact .inr ⟨a, List.mem_append_left _ ha, hpre⟩
    · exact .inr ⟨y, by simp, (List.prefix_append (p ++ [y]) [a]).trans hpre⟩
  · rintro (hupTo | ⟨a, ha, hpre⟩)
    · exact .inl (.inl hupTo)
    · rcases List.mem_append.mp ha with ha | ha
      · exact .inl (.inr (.inr ⟨a, ha, hpre⟩))
      · rw [List.mem_singleton.mp ha] at hpre
        obtain ⟨t, rfl⟩ := hpre
        cases t with
        | nil => exact .inl (.inr (.inl (List.append_nil _)))
        | cons b t =>
          obtain ⟨m, hm, hb, -⟩ := walk_append.mp hw.walk
          obtain ⟨rfl, -⟩ := walk_snoc.mp hm
          exact .inr ⟨b, hb, t, by simp⟩

end

section

variable {found : α → List β} {key : β → α} {visited : List α} {left : Nat}

def Timely (next : α → List α) (s : α) (key : β → α) (shown : List (Nat × β)) : Prop :=
  ∀ e ∈ shown, ∃ w, Shortest next s w (key e.2) ∧ w.length = e.1

theorem Timely.head {b : β} {shown : List (Nat × β)}
    (h : Timely next s key ((p.length + 1, b) :: shown)) (hp : Walk next s (p ++ [key b]) (key b)) :
    Shortest next s (p ++ [key b]) (key b) := by
  obtain ⟨w, hw, hlen⟩ := h _ List.mem_cons_self
  refine ⟨hp, fun q hq => ?_⟩
  have hle := hw.least q hq
  rw [List.length_append, List.length_singleton]
  omega

theorem Timely.tail {e : Nat × β} {a b : List (Nat × β)}
    (h : Timely next s key (e :: (a ++ b))) : Timely next s key a ∧ Timely next s key b :=
  List.forall_mem_append.mp fun e he => h e (List.mem_cons_of_mem _ he)

theorem Inv.finish (h : Inv next s d p [] visited) (hlen : d ≤ p.length) :
    Inv next s d p (next x) visited := by
  refine fun z => (h z).trans ?_
  refine exists_congr fun w => and_congr_right fun _ => and_congr_right fun hfit => ?_
  refine or_congr_right ⟨fun ⟨a, ha, _⟩ => absurd ha List.not_mem_nil, fun ⟨a, _, hpre⟩ => ?_⟩
  have hlong := hpre.length_le
  rw [List.length_append, List.length_singleton] at hlong
  omega

def OrderlyAt (next : α → List α) (s : α) (q : List α) (z : α) : Prop :=
  ∀ y ∈ next z, (∃ w, Walk next s w y ∧ w.length ≤ q.length) →
    ∃ w, Shortest next s w y ∧ UpTo next s w q

theorem Inv.not_visited (h : Inv next s d p done visited) (hp : Walk next s p x) (hy : y ∉ done)
    (hfirst : FirstShortest next s (p ++ [y]) y) : y ∉ visited := by
  intro hold
  obtain ⟨w, hw, -, hupTo | ⟨a, ha, hpre⟩⟩ := (h y).mp hold
  · have heq := hfirst.first w hw ((upTo_snoc hp).mpr (.inl hupTo))
    exact not_upTo_extension y (heq ▸ hupTo)
  · have hlen := hw.length_eq hfirst.toShortest
    have heq : p ++ [a] = w := hpre.eq_of_length (by simp [hlen])
    obtain ⟨rfl, -⟩ := walk_snoc.mp (heq ▸ hw.walk)
    exact hy ha

theorem Inv.orderlyAt (h : Inv next s d p (next x) visited) (hseen : ∀ y ∈ next x, y ∈ visited) :
    OrderlyAt next s p x := by
  rintro y hy ⟨v, hv, hvlen⟩
  obtain ⟨w, hw, -, hupTo | ⟨a, -, hpre⟩⟩ := (h y).mp (hseen y hy)
  · exact ⟨w, hw, hupTo⟩
  · have hlong := hpre.length_le
    have hle := hw.least v hv
    rw [List.length_append, List.length_singleton] at hlong
    omega

variable [DecidableEq α]

theorem Orderly.explore (h : Orderly next s d) (hnext : ∀ y, next y = (found y).map key)
    (hp : FirstShortest next s p x) (hinv : Inv next s d p [] visited)
    (hlen : p.length + left = d) :
    let out := explore found key left (p.length + 1) x visited
    Timely next s key out.1 ∧ Inv next s d p (next x) out.2 := by
  induction left generalizing p x visited with
  | zero => exact ⟨fun e he => absurd he List.not_mem_nil, hinv.finish (by omega)⟩
  | succ left ih =>
    suffices hloop : ∀ bs done visited, next x = done ++ bs.map key →
        Inv next s d p done visited →
        let out := exploreEach (DepthFirst.explore found key left (p.length + 2)) key
          (p.length + 1) bs visited
        Timely next s key out.1 ∧ Inv next s d p (next x) out.2 from
      hloop (found x) [] visited (hnext x) hinv
    intro bs
    induction bs with
    | nil =>
      intro done visited hsplit hinv
      refine ⟨fun e he => absurd he List.not_mem_nil, ?_⟩
      rw [hsplit, List.map_nil, List.append_nil]
      exact hinv
    | cons b bs ihbs =>
      intro done visited hsplit hinv
      have hmem : key b ∈ next x := by simp [hsplit]
      have hsplit' : next x = (done ++ [key b]) ++ bs.map key := by simp [hsplit]
      rw [exploreEach]
      split
      · rename_i hold
        exact ihbs _ visited hsplit' (hinv.skip hp.walk hmem hold)
      · rename_i hnew
        have hshort : Shortest next s (p ++ [key b]) (key b) := by
          refine ⟨hp.walk.snoc hmem, fun q hq => ?_⟩
          by_contra hlt
          rw [List.length_append, List.length_singleton] at hlt
          obtain ⟨w, hw, hupTo⟩ := h p x (key b) hp (by omega) hmem ⟨q, hq, by omega⟩
          have hle := hw.least q hq
          exact hnew ((hinv _).mpr ⟨w, hw, by omega, .inl hupTo⟩)
        obtain ⟨hdone, hfirst, henter⟩ := hinv.enter hp.walk hsplit hnew hshort (by omega)
        have hsub := ih hfirst henter (by simp; omega)
        rw [List.length_append] at hsub
        have hrest := ihbs _ _ hsplit' (hsub.2.leave hp.walk hsplit hdone)
        refine ⟨fun e he => ?_, hrest.2⟩
        rcases List.mem_cons.mp he with rfl | he
        · exact ⟨_, hshort, by simp⟩
        · rcases List.mem_append.mp he with he | he
          · exact hsub.1 e he
          · exact hrest.1 e he

theorem Timely.explore (hnext : ∀ y, next y = (found y).map key)
    (hp : FirstShortest next s p x) (hinv : Inv next s d p [] visited) (hlen : p.length + left = d)
    (h : Timely next s key (explore found key left (p.length + 1) x visited).1) :
    Inv next s d p (next x) (explore found key left (p.length + 1) x visited).2 ∧
      ∀ q z, FirstShortest next s q z → q.length < d → p <+: q → OrderlyAt next s q z := by
  induction left generalizing p x visited with
  | zero =>
    refine ⟨hinv.finish (by omega), fun q z _ hq hpre => ?_⟩
    have hle := hpre.length_le
    omega
  | succ left ih =>
    have hloop : ∀ bs done visited, next x = done ++ bs.map key →
        Inv next s d p done visited →
        let out := exploreEach (DepthFirst.explore found key left (p.length + 2)) key
          (p.length + 1) bs visited
        Timely next s key out.1 → Inv next s d p (next x) out.2 ∧
          ∀ q z, FirstShortest next s q z → q.length < d → ∀ y ∈ bs.map key, y ∉ done →
            p ++ [y] <+: q → OrderlyAt next s q z := by
      intro bs
      induction bs with
      | nil =>
        intro done visited hsplit hinv out _
        rw [hsplit, List.map_nil, List.append_nil]
        exact ⟨hinv, fun q z _ _ y hy => absurd hy List.not_mem_nil⟩
      | cons b bs ihbs =>
        intro done visited hsplit hinv out htimely
        have hmem : key b ∈ next x := by simp [hsplit]
        have hsplit' : next x = (done ++ [key b]) ++ bs.map key := by simp [hsplit]
        have hfirst : ∀ q z, FirstShortest next s q z → p ++ [key b] <+: q →
            FirstShortest next s (p ++ [key b]) (key b) := by
          rintro q z hq ⟨t, rfl⟩
          exact hq.initial (hp.walk.snoc hmem)
        simp only [out, exploreEach] at htimely ⊢
        split
        · rename_i hold
          rw [if_pos hold] at htimely
          have hrest := ihbs _ visited hsplit' (hinv.skip hp.walk hmem hold) htimely
          refine ⟨hrest.1, fun q z hq hlt y hy hdone hpre => ?_⟩
          by_cases hyb : y = key b
          · subst hyb
            exact absurd hold (hinv.not_visited hp.walk hdone (hfirst q z hq hpre))
          · have hy' := (List.mem_cons.mp hy).resolve_left hyb
            exact hrest.2 q z hq hlt y hy' (by simp [hdone, hyb]) hpre
        · rename_i hnew
          rw [if_neg hnew] at htimely
          have hshort := htimely.head (hp.walk.snoc hmem)
          obtain ⟨hdone, hfirstb, henter⟩ := hinv.enter hp.walk hsplit hnew hshort (by omega)
          have hsub := ih hfirstb henter (by simp; omega) (by simpa using htimely.tail.1)
          rw [List.length_append] at hsub
          have hrest := ihbs _ _ hsplit' (hsub.1.leave hp.walk hsplit hdone) htimely.tail.2
          refine ⟨hrest.1, fun q z hq hlt y hy hydone hpre => ?_⟩
          by_cases hyb : y = key b
          · subst hyb
            exact hsub.2 q z hq hlt hpre
          · have hy' := (List.mem_cons.mp hy).resolve_left hyb
            exact hrest.2 q z hq hlt y hy' (by simp [hydone, hyb]) hpre
    obtain ⟨hend, hbelow⟩ := hloop (found x) [] visited (hnext x) hinv h
    refine ⟨hend, fun q z hq hlt hpre => ?_⟩
    obtain ⟨t, rfl⟩ := hpre
    cases t with
    | nil =>
      rw [List.append_nil] at hq ⊢
      obtain rfl := hq.walk.unique hp.walk
      refine hend.orderlyAt fun y hy => ?_
      rw [hnext] at hy
      obtain ⟨b, hb, rfl⟩ := List.mem_map.mp hy
      exact mem_exploreEach_of_mem (counts_explore left (p.length + 2)) hb
    | cons y t =>
      obtain ⟨m, hm, hy, -⟩ := walk_append.mp hq.walk
      obtain rfl := hp.walk.unique hm
      rw [hnext] at hy
      exact hbelow _ z hq hlt y hy List.not_mem_nil ⟨t, by simp⟩

theorem timely_iff_orderly (hnext : ∀ y, next y = (found y).map key) :
    Timely next s key (explore found key d 1 s [s]).1 ↔ Orderly next s d := by
  constructor
  · intro h p x y hp hlt hy hnear
    exact (Timely.explore hnext (firstShortest_nil s) inv_start (Nat.zero_add d) h).2 p x hp hlt
      List.nil_prefix y hy hnear
  · exact fun h => (h.explore hnext (firstShortest_nil s) inv_start (Nat.zero_add d)).1

theorem Orderly.shown_iff (h : Orderly next s d) (hnext : ∀ y, next y = (found y).map key)
    (k : Nat) (z : α) :
    (∃ b, (k, b) ∈ (DepthFirst.explore found key d 1 s [s]).1 ∧ key b = z) ↔
      1 ≤ k ∧ k ≤ d ∧ AtDistance next [s] k z := by
  have hlength : ([] : List α).length + d = d := Nat.zero_add d
  obtain ⟨htimely, hend⟩ := h.explore hnext (firstShortest_nil s) inv_start hlength
  constructor
  · rintro ⟨b, hb, rfl⟩
    have hle := le_of_mem_explore hb
    obtain ⟨w, hw, rfl⟩ := htimely _ hb
    exact ⟨hle.1, by omega, hw.atDistance⟩
  · rintro ⟨hpos, hle, hz⟩
    obtain ⟨w, hw, rfl⟩ := exists_shortest hz
    have hseen : z ∈ (DepthFirst.explore found key d 1 s [s]).2 := by
      refine (hend z).mpr ⟨w, hw, hle, .inr ?_⟩
      cases w with
      | nil => simp at hpos
      | cons a w => exact ⟨a, hw.walk.1, by simp⟩
    rcases (counts_explore d 1 s [s] z).mp hseen with hstart | ⟨e, he, rfl⟩
    · rw [List.mem_singleton.mp hstart] at hw
      have hzero := hw.length_eq (firstShortest_nil s).toShortest
      omega
    · obtain ⟨v, hv, hvlen⟩ := htimely e he
      exact ⟨e.2, by rw [hw.length_eq hv, hvlen]; exact he, rfl⟩

end

end SwissArmyHammer.DepthFirst
