import Mathlib.Data.List.Nodup
import Mathlib.Data.Set.Card
import Mathlib.Logic.Relation

/-! Breadth first search with a bound on what it collects. The search meets the nodes that can
be reached once each, the nearer ones first, and stops at the bound or when none is left. -/

namespace SwissArmyHammer.BreadthFirst

variable {α σ : Type} {next : α → List α} {start x y : α} {j k : Nat}

def Within (next : α → List α) (start : α) : Nat → α → Prop
  | 0, x => x = start
  | k + 1, x => Within next start k x ∨ ∃ y, Within next start k y ∧ x ∈ next y

def Reaches (next : α → List α) (start x : α) : Prop :=
  Relation.TransGen (fun a b => b ∈ next a) start x

def Nearer (next : α → List α) (start x y : α) : Prop :=
  ∃ k, Within next start k x ∧ ¬ Within next start k y

theorem Within.mono (hle : j ≤ k) (h : Within next start j x) : Within next start k x := by
  induction hle with
  | refl => exact h
  | step _ ih => exact .inl ih

theorem Within.self (k : Nat) : Within next start k start :=
  Within.mono (Nat.zero_le k) (rfl : Within next start 0 start)

theorem Within.reaches (h : Within next start k x) : x = start ∨ Reaches next start x := by
  induction k generalizing x with
  | zero => exact .inl h
  | succ k ih =>
    rcases h with h | ⟨y, hy, hstep⟩
    · exact ih h
    · rcases ih hy with rfl | hreach
      · exact .inr (.single hstep)
      · exact .inr (hreach.tail hstep)

structure Visitor (α σ : Type) where
  visit : σ → α → σ
  size : σ → Nat

structure Search (α σ : Type) where
  queue : List α
  visited : List α
  found : σ

def Search.meet (V : Visitor α σ) (s : Search α σ) (x : α) : Search α σ :=
  ⟨s.queue ++ [x], s.visited ++ [x], V.visit s.found x⟩

def scan [DecidableEq α] (V : Visitor α σ) (cap : Nat) : List α → Search α σ → Search α σ
  | [], s => s
  | x :: xs, s =>
    if x ∈ s.visited then scan V cap xs s
    else if cap ≤ V.size (s.meet V x).found then s.meet V x
    else scan V cap xs (s.meet V x)

def run [DecidableEq α] (V : Visitor α σ) (next : α → List α) (cap : Nat) : Nat → Search α σ → Option σ
  | 0, _ => none
  | fuel + 1, s =>
    match s.queue with
    | [] => some s.found
    | x :: queue =>
      if cap ≤ V.size s.found then some s.found
      else run V next cap fuel (scan V cap (next x) { s with queue })

def search [DecidableEq α] (V : Visitor α σ) (next : α → List α) (init : σ) (cap fuel : Nat)
    (start : α) : Option σ :=
  run V next cap fuel ⟨[start], [start], init⟩

structure Layered (V : Visitor α σ) (next : α → List α) (init : σ) (start : α) (k : Nat)
    (order : List α) (s : Search α σ) : Prop where
  visited : s.visited = start :: order
  nodup : (start :: order).Nodup
  near : ∀ x, Within next start k x → x ∈ start :: order
  far : ∀ x ∈ start :: order, Within next start (k + 1) x
  sorted : (start :: order).Pairwise fun x y => ∀ j, Within next start j y → Within next start j x
  found : s.found = order.foldl V.visit init
  size : V.size s.found = order.length

structure Counts (V : Visitor α σ) (next : α → List α) (init : σ) (start : α) : Prop where
  init : V.size init = 0
  visit : ∀ found x, Reaches next start x → V.size (V.visit found x) = V.size found + 1

variable {V : Visitor α σ} {init : σ} {cap fuel : Nat} {order done : List α} {s : Search α σ}

theorem layered_start (hV : Counts V next init start) :
    Layered V next init start 0 [] ⟨[start], [start], init⟩ where
  visited := rfl
  nodup := List.nodup_singleton start
  near x hx := List.mem_singleton.mpr hx
  far x hx := by
    rw [List.mem_singleton.mp hx]
    exact Within.self 1
  sorted := List.pairwise_singleton _ _
  found := rfl
  size := hV.init

theorem Layered.meet (h : Layered V next init start k order s) (hV : Counts V next init start)
    (hy : Within next start (k + 1) y) (hnew : y ∉ s.visited) :
    Layered V next init start k (order ++ [y]) (s.meet V y) := by
  rw [h.visited] at hnew
  have hreach : Reaches next start y := by
    rcases hy.reaches with rfl | hreach
    · exact absurd List.mem_cons_self hnew
    · exact hreach
  have hbeyond : ∀ j, Within next start j y → k + 1 ≤ j := by
    intro j hj
    by_contra hlt
    exact hnew (h.near y (hj.mono (by omega)))
  refine ⟨?_, ?_, ?_, ?_, ?_, ?_, ?_⟩
  · simp only [Search.meet, h.visited, List.cons_append]
  · rw [← List.cons_append, List.nodup_append]
    refine ⟨h.nodup, List.nodup_singleton y, fun a ha b hb hab => ?_⟩
    rw [hab, List.mem_singleton.mp hb] at ha
    exact hnew ha
  · intro x hx
    exact List.mem_append_left _ (h.near x hx)
  · intro x hx
    rw [← List.cons_append] at hx
    rcases List.mem_append.mp hx with hx | hx
    · exact h.far x hx
    · rw [List.mem_singleton.mp hx]
      exact hy
  · rw [← List.cons_append, List.pairwise_append]
    refine ⟨h.sorted, List.pairwise_singleton _ _, fun a ha b hb j hj => ?_⟩
    rw [List.mem_singleton.mp hb] at hj
    exact (h.far a ha).mono (hbeyond j hj)
  · simp only [Search.meet, h.found, List.foldl_append, List.foldl_cons, List.foldl_nil]
  · show V.size (V.visit s.found y) = _
    rw [hV.visit _ _ hreach, h.size, List.length_append, List.length_singleton]

theorem Layered.up (h : Layered V next init start k order s) (hsplit : start :: order = done ++ s.queue)
    (hclosed : ∀ x ∈ done, ∀ y ∈ next x, y ∈ start :: order)
    (hqueue : ∀ x ∈ s.queue, ¬ Within next start k x) :
    Layered V next init start (k + 1) order s where
  visited := h.visited
  nodup := h.nodup
  near x hx := by
    rcases hx with hx | ⟨z, hz, hstep⟩
    · exact h.near x hx
    · have hmem := h.near z hz
      rw [hsplit] at hmem
      rcases List.mem_append.mp hmem with hdone | hwait
      · exact hclosed z hdone x hstep
      · exact absurd hz (hqueue z hwait)
  far x hx := .inl (h.far x hx)
  sorted := h.sorted
  found := h.found
  size := h.size

theorem Layered.nearer (h : Layered V next init start k order s) {pre post : List α}
    (hsplit : order = pre ++ y :: post) (hne : x ≠ start) (hnear : Nearer next start x y) :
    x ∈ pre := by
  obtain ⟨j, hx, hy⟩ := hnear
  have hmem : y ∈ start :: order := by simp [hsplit]
  have hj : j ≤ k := by
    by_contra hlt
    exact hy ((h.far y hmem).mono (by omega))
  have hxmem : x ∈ order := (List.mem_cons.mp (h.near x (hx.mono hj))).resolve_left hne
  have hsorted := (List.pairwise_cons.mp h.sorted).2
  rw [hsplit] at hxmem hsorted
  rcases List.mem_append.mp hxmem with hpre | hpost
  · exact hpre
  · have hafter := (List.pairwise_append.mp hsorted).2.1
    rcases List.mem_cons.mp hpost with rfl | hpost
    · exact absurd hx hy
    · exact absurd ((List.pairwise_cons.mp hafter).1 x hpost j hx) hy

theorem reaches_mem_of_closed (hclosed : ∀ x ∈ start :: order, ∀ y ∈ next x, y ∈ start :: order)
    (h : Reaches next start x) : x ∈ start :: order := by
  induction h with
  | single hstep => exact hclosed start List.mem_cons_self _ hstep
  | tail _ hstep ih => exact hclosed _ ih _ hstep

variable [DecidableEq α]

theorem Layered.scan (hV : Counts V next init start) (ys : List α)
    (hys : ∀ y ∈ ys, Within next start (k + 1) y) (h : Layered V next init start k order s)
    (hlt : order.length < cap) :
    ∃ new, Layered V next init start k (order ++ new) (scan V cap ys s) ∧
      (scan V cap ys s).queue = s.queue ++ new ∧ (order ++ new).length ≤ cap ∧
      ((order ++ new).length = cap ∨ ∀ y ∈ ys, y ∈ start :: (order ++ new)) := by
  induction ys generalizing order s with
  | nil =>
    refine ⟨[], ?_, ?_, ?_, .inr fun y hy => absurd hy List.not_mem_nil⟩
    · rwa [List.append_nil]
    · exact (List.append_nil _).symm
    · rw [List.append_nil]
      exact hlt.le
  | cons y ys ih =>
    have hrest : ∀ y ∈ ys, Within next start (k + 1) y :=
      fun z hz => hys z (List.mem_cons_of_mem y hz)
    rw [BreadthFirst.scan]
    by_cases hold : y ∈ s.visited
    · rw [if_pos hold]
      obtain ⟨new, hlayer, hqueue, hlen, hmet⟩ := ih hrest h hlt
      refine ⟨new, hlayer, hqueue, hlen, hmet.imp_right fun hmet z hz => ?_⟩
      rcases List.mem_cons.mp hz with rfl | hz
      · rw [h.visited] at hold
        exact List.mem_append_left _ hold
      · exact hmet z hz
    · rw [if_neg hold]
      have hmeet := h.meet hV (hys y List.mem_cons_self) hold
      have hsize := hmeet.size
      rw [List.length_append, List.length_singleton] at hsize
      by_cases hcap : cap ≤ V.size (s.meet V y).found
      · rw [if_pos hcap]
        have hlen : (order ++ [y]).length = cap := by
          rw [List.length_append, List.length_singleton]
          omega
        exact ⟨[y], hmeet, rfl, hlen.le, .inl hlen⟩
      · rw [if_neg hcap]
        have hlt' : (order ++ [y]).length < cap := by
          rw [List.length_append, List.length_singleton]
          omega
        obtain ⟨new, hlayer, hqueue, hlen, hmet⟩ := ih hrest hmeet hlt'
        have hassoc : order ++ [y] ++ new = order ++ y :: new := by
          rw [List.append_assoc, List.singleton_append]
        rw [hassoc] at hlayer hlen hmet
        refine ⟨y :: new, hlayer, ?_, hlen, hmet.imp_right fun hmet z hz => ?_⟩
        · rw [hqueue, Search.meet, List.append_assoc, List.singleton_append]
        · grind

structure Met (next : α → List α) (start : α) (cap : Nat) (order : List α) : Prop where
  nodup : order.Nodup
  reaches : ∀ x ∈ order, x ≠ start ∧ Reaches next start x
  length : order.length = min cap {x | x ≠ start ∧ Reaches next start x}.ncard
  nearer : ∀ pre y post, order = pre ++ y :: post →
    ∀ x, x ≠ start → Nearer next start x y → x ∈ pre

theorem Layered.met (h : Layered V next init start k order s) {nodes : List α}
    (hfin : ∀ x, Reaches next start x → x ∈ nodes) (hle : order.length ≤ cap)
    (hend : order.length = cap ∨ ∀ x, Reaches next start x → x ∈ start :: order) :
    Met next start cap order := by
  obtain ⟨hnot, hnodup⟩ := List.nodup_cons.mp h.nodup
  have hreaches : ∀ x ∈ order, x ≠ start ∧ Reaches next start x := by
    intro x hx
    have hne : x ≠ start := fun heq => hnot (heq ▸ hx)
    have hwithin := h.far x (List.mem_cons_of_mem _ hx)
    exact ⟨hne, hwithin.reaches.resolve_left hne⟩
  have hfinite : {x | x ≠ start ∧ Reaches next start x}.Finite :=
    nodes.toFinset.finite_toSet.subset fun x hx => by simpa using hfin x hx.2
  have hcard : (order.toFinset : Set α).ncard = order.length := by
    rw [Set.ncard_coe_finset, List.toFinset_card_of_nodup hnodup]
  have hsub : (order.toFinset : Set α) ⊆ {x | x ≠ start ∧ Reaches next start x} :=
    fun x hx => hreaches x (by simpa using hx)
  have hcount : order.length ≤ {x | x ≠ start ∧ Reaches next start x}.ncard :=
    hcard ▸ Set.ncard_le_ncard hsub hfinite
  refine ⟨hnodup, hreaches, ?_, fun pre y post hsplit x => h.nearer hsplit⟩
  rcases hend with hfull | hall
  · omega
  · have hsup : {x | x ≠ start ∧ Reaches next start x} ⊆ (order.toFinset : Set α) := by
      intro x hx
      have hmem := (List.mem_cons.mp (hall x hx.2)).resolve_left hx.1
      simpa using hmem
    have hcount' := Set.ncard_le_ncard hsup (Finset.finite_toSet _)
    omega

theorem run_spec (hV : Counts V next init start) {nodes : List α}
    (hfin : ∀ x, Reaches next start x → x ∈ nodes) (fuel : Nat)
    (h : Layered V next init start k order s) (hsplit : start :: order = done ++ s.queue)
    (hclosed : order.length = cap ∨ ∀ x ∈ done, ∀ y ∈ next x, y ∈ start :: order)
    (hle : order.length ≤ cap) (hfuel : nodes.length + 1 < fuel + done.length) :
    ∃ order', run V next cap fuel s = some (order'.foldl V.visit init) ∧
      Met next start cap order' := by
  induction fuel generalizing k order s done with
  | zero =>
    -- the nodes that are done are distinct and stand among the nodes
    have hnodup := h.nodup
    rw [hsplit] at hnodup
    have hsub : done ⊆ start :: nodes := by
      intro x hx
      have hmem : x ∈ start :: order := hsplit ▸ List.mem_append_left _ hx
      rcases (h.far x hmem).reaches with rfl | hreach
      · exact List.mem_cons_self
      · exact List.mem_cons_of_mem _ (hfin x hreach)
    have hlen := ((List.nodup_append.mp hnodup).1.subperm hsub).length_le
    rw [List.length_cons] at hlen
    omega
  | succ fuel ih =>
    rw [run]
    split
    · rename_i hempty
      rw [hempty, List.append_nil] at hsplit
      refine ⟨order, by rw [h.found], h.met hfin hle (hclosed.imp_right fun hclosed x hx => ?_)⟩
      exact reaches_mem_of_closed (fun z hz => hclosed z (hsplit ▸ hz)) hx
    · rename_i x queue hqueue
      rw [h.size]
      by_cases hcap : cap ≤ order.length
      · rw [if_pos hcap]
        exact ⟨order, by rw [h.found], h.met hfin hle (.inl (by omega))⟩
      · rw [if_neg hcap]
        have hclosed := hclosed.resolve_left (by omega)
        rw [hqueue] at hsplit
        have hxmem : x ∈ start :: order := hsplit ▸ by simp
        obtain ⟨k', hlayer, hx⟩ :
            ∃ k', Layered V next init start k' order s ∧ Within next start k' x := by
          by_cases hx : Within next start k x
          · exact ⟨k, h, hx⟩
          · have hsorted := h.sorted
            rw [hsplit] at hsorted
            have hbehind := (List.pairwise_cons.mp (List.pairwise_append.mp hsorted).2.1).1
            have hbeyond : ∀ z ∈ s.queue, ¬ Within next start k z := by
              intro z hz hk
              rw [hqueue] at hz
              rcases List.mem_cons.mp hz with rfl | hz
              · exact hx hk
              · exact hx (hbehind z hz k hk)
            exact ⟨k + 1, h.up (hqueue ▸ hsplit) hclosed hbeyond, h.far x hxmem⟩
        have hpopped : Layered V next init start k' order { s with queue } :=
          ⟨hlayer.visited, hlayer.nodup, hlayer.near, hlayer.far, hlayer.sorted, hlayer.found,
            hlayer.size⟩
        have hys : ∀ y ∈ next x, Within next start (k' + 1) y := fun y hy => .inr ⟨x, hx, hy⟩
        have hlt : order.length < cap := by omega
        obtain ⟨new, hscan, hnew, hlen, hmet⟩ := hpopped.scan hV (next x) hys hlt
        have hsplit' : start :: (order ++ new) =
            done ++ [x] ++ (scan V cap (next x) { s with queue }).queue := by
          rw [hnew, ← List.cons_append, hsplit]
          simp only [List.append_assoc, List.cons_append, List.nil_append]
        have hfuel' : nodes.length + 1 < fuel + (done ++ [x]).length := by
          rw [List.length_append, List.length_singleton]
          omega
        refine ih hscan hsplit' (hmet.imp_right fun hmet z hz y hy => ?_) hlen hfuel'
        rcases List.mem_append.mp hz with hz | hz
        · exact List.mem_append_left _ (hclosed z hz y hy)
        · rw [List.mem_singleton.mp hz] at hy
          exact hmet y hy

variable (cap) in
theorem search_spec (hV : Counts V next init start) {nodes : List α}
    (hfin : ∀ x, Reaches next start x → x ∈ nodes) (hfuel : nodes.length + 1 < fuel) :
    ∃ order, search V next init cap fuel start = some (order.foldl V.visit init) ∧
      Met next start cap order := by
  have hsplit : [start] = [] ++ [start] := rfl
  have hclosed : ∀ x ∈ ([] : List α), ∀ y ∈ next x, y ∈ [start] :=
    fun _ hx => absurd hx List.not_mem_nil
  exact run_spec hV hfin fuel (layered_start hV) hsplit (.inr hclosed) (Nat.zero_le cap) hfuel

end SwissArmyHammer.BreadthFirst
