import Mathlib.Data.List.TakeWhile

/-! A buffered reader over a stream that arrives in chunks. It takes in a whole chunk, and only when
its buffer is empty and something is still to be read. -/

namespace SwissArmyHammer

structure BufferedReader (α : Type) where
  buffer : List α
  chunks : List (List α)
  deriving DecidableEq

namespace BufferedReader

variable {α : Type}

def bytes (r : BufferedReader α) : List α := r.buffer ++ r.chunks.flatten

def readUntil [DecidableEq α] (delim : α) (buffer : List α) :
    List (List α) → List α × BufferedReader α
  | [] =>
    if delim ∈ buffer then
      (buffer.takeWhile (· ≠ delim) ++ [delim], ⟨(buffer.dropWhile (· ≠ delim)).tail, []⟩)
    else (buffer, ⟨[], []⟩)
  | chunk :: chunks =>
    if delim ∈ buffer then
      (buffer.takeWhile (· ≠ delim) ++ [delim],
        ⟨(buffer.dropWhile (· ≠ delim)).tail, chunk :: chunks⟩)
    else
      let rest := readUntil delim chunk chunks
      (buffer ++ rest.1, rest.2)

def readExact (n : Nat) (buffer : List α) : List (List α) → Option (List α) × BufferedReader α
  | [] => if n ≤ buffer.length then (some (buffer.take n), ⟨buffer.drop n, []⟩) else (none, ⟨[], []⟩)
  | chunk :: chunks =>
    if n ≤ buffer.length then (some (buffer.take n), ⟨buffer.drop n, chunk :: chunks⟩)
    else
      let rest := readExact (n - buffer.length) chunk chunks
      (rest.1.map (buffer ++ ·), rest.2)

def Took (r : BufferedReader α) (read : List α) (r' : BufferedReader α) : Prop :=
  ∃ k, r'.chunks = r.chunks.drop k ∧ r.buffer ++ (r.chunks.take k).flatten = read ++ r'.buffer ∧
    ∀ j < k, (r.buffer ++ (r.chunks.take j).flatten).length < read.length

variable {r r' r'' : BufferedReader α} {xs ys buffer : List α} {chunks : List (List α)}

theorem Took.bytes (h : Took r xs r') : r.bytes = xs ++ r'.bytes := by
  obtain ⟨k, hchunks, hread, -⟩ := h
  have hsplit : r.chunks.flatten = (r.chunks.take k).flatten ++ (r.chunks.drop k).flatten := by
    rw [← List.flatten_append, List.take_append_drop]
  rw [BufferedReader.bytes, BufferedReader.bytes, hsplit, ← List.append_assoc, hread, hchunks,
    List.append_assoc]

theorem Took.refl (r : BufferedReader α) : Took r [] r :=
  ⟨0, rfl, by simp, fun j hj => absurd hj (Nat.not_lt_zero j)⟩

theorem Took.trans (h : Took r xs r') (h' : Took r' ys r'') : Took r (xs ++ ys) r'' := by
  obtain ⟨k, hchunks, hread, hlazy⟩ := h
  obtain ⟨k', hchunks', hread', hlazy'⟩ := h'
  have htake : ∀ i, r.buffer ++ (r.chunks.take (k + i)).flatten =
      xs ++ (r'.buffer ++ (r'.chunks.take i).flatten) := by
    intro i
    rw [List.take_add, List.flatten_append, ← List.append_assoc, hread, List.append_assoc, ← hchunks]
  refine ⟨k + k', ?_, ?_, ?_⟩
  · rw [hchunks', hchunks, List.drop_drop]
  · rw [htake, hread', List.append_assoc]
  · intro j hj
    have hlength : (xs ++ ys).length = xs.length + ys.length := List.length_append
    by_cases hjk : j < k
    · have hless := hlazy j hjk
      omega
    · have hi := hlazy' (j - k) (by omega)
      have hsum : j = k + (j - k) := by omega
      rw [hsum, htake, List.length_append]
      omega

theorem Took.refill {chunk : List α} (h : Took ⟨chunk, chunks⟩ xs r') (hne : xs ≠ []) :
    Took ⟨buffer, chunk :: chunks⟩ (buffer ++ xs) r' := by
  obtain ⟨k, hchunks, hread, hlazy⟩ := h
  refine ⟨k + 1, hchunks, ?_, ?_⟩
  · rw [List.take_succ_cons, List.flatten_cons, hread, List.append_assoc]
  · intro j hj
    have hpos := List.length_pos_iff.mpr hne
    cases j with
    | zero =>
      simp only [List.take_zero, List.flatten_nil, List.append_nil, List.length_append]
      omega
    | succ j =>
      grind

theorem Took.buffer_eq_nil_iff (h : Took ⟨[], chunks⟩ xs r') :
    r'.buffer = [] ↔ ∃ k, (chunks.take k).flatten = xs := by
  obtain ⟨k, -, hread, hlazy⟩ := h
  rw [List.nil_append] at hread
  constructor
  · intro hnil
    exact ⟨k, by rw [hread, hnil, List.append_nil]⟩
  · intro hends
    obtain ⟨j, hj⟩ := hends
    have hjk : ¬ j < k := fun hlt => by grind
    have hle : ((chunks.take k).flatten).length ≤ ((chunks.take j).flatten).length := by
      have hsplit : chunks.take j = chunks.take k ++ (chunks.drop k).take (j - k) := by
        rw [← List.take_add]
        congr 1
        omega
      rw [hsplit, List.flatten_append, List.length_append]
      omega
    rw [hread, hj, List.length_append] at hle
    exact List.eq_nil_of_length_eq_zero (by omega)

section

variable {delim : α}

theorem line_in_buffer (hxs : delim ∉ xs) (h : buffer ++ chunks.flatten = xs ++ delim :: ys)
    (hmem : delim ∈ buffer) : ∃ rest, buffer = xs ++ delim :: rest := by
  rcases List.append_eq_append_iff.mp h with ⟨mid, rfl, hmid⟩ | ⟨mid, rfl, hmid⟩
  · exact absurd (List.mem_append_left _ hmem) hxs
  · cases mid with
    | nil =>
      rw [List.append_nil] at hmem
      exact absurd hmem hxs
    | cons first rest =>
      obtain ⟨rfl, -⟩ := List.cons.inj (hmid.trans (List.cons_append ..))
      exact ⟨rest, rfl⟩

theorem line_after_buffer (h : buffer ++ chunks.flatten = xs ++ delim :: ys) (hmem : delim ∉ buffer) :
    ∃ rest, xs = buffer ++ rest ∧ chunks.flatten = rest ++ delim :: ys := by
  rcases List.append_eq_append_iff.mp h with ⟨mid, hxs, hmid⟩ | ⟨mid, rfl, hmid⟩
  · exact ⟨mid, hxs, hmid⟩
  · cases mid with
    | nil => exact ⟨[], by simp, hmid.symm⟩
    | cons first rest =>
      obtain ⟨rfl, -⟩ := List.cons.inj (hmid.trans (List.cons_append ..))
      exact absurd (by simp) hmem

variable [DecidableEq α]

theorem takeWhile_until (hxs : delim ∉ xs) : (xs ++ delim :: ys).takeWhile (· ≠ delim) = xs := by
  rw [List.takeWhile_append_of_pos fun x hx => by
    simpa using fun heq : x = delim => hxs (heq ▸ hx)]
  simp

theorem dropWhile_until (hxs : delim ∉ xs) :
    (xs ++ delim :: ys).dropWhile (· ≠ delim) = delim :: ys := by
  rw [List.dropWhile_append_of_pos fun x hx => by
    simpa using fun heq : x = delim => hxs (heq ▸ hx)]
  simp

theorem readUntil_spec (hxs : delim ∉ xs) (h : buffer ++ chunks.flatten = xs ++ delim :: ys) :
    (readUntil delim buffer chunks).1 = xs ++ [delim] ∧
      Took ⟨buffer, chunks⟩ (xs ++ [delim]) (readUntil delim buffer chunks).2 := by
  induction chunks generalizing buffer xs with
  | nil =>
    have hmem : delim ∈ buffer := by
      rw [List.flatten_nil, List.append_nil] at h
      rw [h]
      simp
    obtain ⟨rest, rfl⟩ := line_in_buffer hxs h hmem
    rw [readUntil, if_pos hmem, takeWhile_until hxs, dropWhile_until hxs]
    exact ⟨rfl, 0, rfl, by simp, fun j hj => absurd hj (Nat.not_lt_zero j)⟩
  | cons chunk chunks ih =>
    rw [readUntil]
    by_cases hmem : delim ∈ buffer
    · obtain ⟨rest, rfl⟩ := line_in_buffer hxs h hmem
      rw [if_pos hmem, takeWhile_until hxs, dropWhile_until hxs]
      exact ⟨rfl, 0, rfl, by simp, fun j hj => absurd hj (Nat.not_lt_zero j)⟩
    · obtain ⟨mid, rfl, hmid⟩ := line_after_buffer h hmem
      have hrest : chunk ++ chunks.flatten = mid ++ delim :: ys := hmid
      obtain ⟨hline, htook⟩ := ih (fun hin => hxs (List.mem_append_right _ hin)) hrest
      simp only [if_neg hmem, hline, List.append_assoc]
      exact ⟨trivial, htook.refill (by simp)⟩

theorem readUntil_end (h : buffer ++ chunks.flatten = []) :
    readUntil delim buffer chunks = ([], ⟨[], []⟩) := by
  induction chunks generalizing buffer with
  | nil =>
    obtain rfl : buffer = [] := by simpa using h
    simp [readUntil]
  | cons chunk chunks ih =>
    obtain ⟨rfl, hrest⟩ := List.append_eq_nil_iff.mp h
    simp only [readUntil, List.not_mem_nil, if_false, ih hrest, List.nil_append]

end

theorem readExact_spec (h : buffer ++ chunks.flatten = xs ++ ys) :
    (readExact xs.length buffer chunks).1 = some xs ∧
      Took ⟨buffer, chunks⟩ xs (readExact xs.length buffer chunks).2 := by
  induction chunks generalizing buffer xs with
  | nil =>
    rw [List.flatten_nil, List.append_nil] at h
    subst h
    rw [readExact, if_pos (by simp), List.take_left]
    exact ⟨rfl, 0, rfl, by simp, fun j hj => absurd hj (Nat.not_lt_zero j)⟩
  | cons chunk chunks ih =>
    rw [readExact]
    rcases List.append_eq_append_iff.mp h with ⟨mid, rfl, hmid⟩ | ⟨mid, rfl, hmid⟩
    · by_cases hmidNil : mid = []
      · subst hmidNil
        rw [List.append_nil, if_pos (Nat.le_refl _), List.take_length]
        exact ⟨rfl, 0, rfl, by simp, fun j hj => absurd hj (Nat.not_lt_zero j)⟩
      · have hpos := List.length_pos_iff.mpr hmidNil
        have hrest : chunk ++ chunks.flatten = mid ++ ys := hmid
        obtain ⟨hread, htook⟩ := ih hrest
        have hless : ¬ (buffer ++ mid).length ≤ buffer.length := by
          rw [List.length_append]
          omega
        have hlength : (buffer ++ mid).length - buffer.length = mid.length := by
          rw [List.length_append]
          omega
        simp only [if_neg hless, hlength, hread, Option.map_some]
        exact ⟨trivial, htook.refill hmidNil⟩
    · rw [if_pos (by simp), List.take_left]
      exact ⟨rfl, 0, rfl, by simp, fun j hj => absurd hj (Nat.not_lt_zero j)⟩

end BufferedReader

end SwissArmyHammer
