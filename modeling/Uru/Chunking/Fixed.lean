import Uru.Chunking.Text

/-!
# Chunks of a fixed number of characters

The loop of the fallback without a tokenizer takes a window of four characters
for each token of the chunk size, pulls its end back to the last space in its
second half, and goes back by the overlap before it takes the next one. A
window of white space gives no chunk. The loop gets on as long as the end stays
more than the overlap after the start.
-/

set_option autoImplicit false

namespace Uru.Chunking

open Uru.Lib

structure Chunker where
  chunkSize : ℕ
  chunkOverlap : ℕ
  admitted : chunkOverlap < chunkSize

structure ChunkResult where
  content : Text
  index : ℕ
  startChar : ℤ
  endChar : ℤ
  tokenCount : ℕ
deriving DecidableEq

namespace Fixed

section Loop

variable (c : Chunker) (t : Text)

def charsPerChunk : ℤ := c.chunkSize*4

def overlapChars : ℤ := c.chunkOverlap*4

def stop (start : ℤ) : ℤ :=
  let stop := min (start+charsPerChunk c) t.length
  if stop < t.length then
    let spacePos := rfind t (letter ' ') (start+charsPerChunk c/2) stop
    if start < spacePos then spacePos else stop
  else stop

def next (start : ℤ) : ℤ :=
  if stop c t start < t.length then stop c t start-overlapChars c else stop c t start

def window (start : ℤ) : Text := strip (slice t start (stop c t start))

def chunkAt (start : ℤ) (index : ℕ) : ChunkResult where
  content := window c t start
  index := index
  startChar := start
  endChar := stop c t start
  tokenCount := (window c t start).length/4

/-- `_chunk_by_chars` from a start on; `none` where the loop takes more than the
given number of turns. -/
def loop : ℕ → ℤ → ℕ → Option (List ChunkResult)
  | 0, start, _ => if start < t.length then none else some []
  | n+1, start, index =>
    if start < t.length then
      if window c t start = [] then loop n (next c t start) index
      else (loop n (next c t start) (index+1)).map (fun cs => chunkAt c t start index::cs)
    else some []

def visited (k : ℕ) : ℤ := (next c t)^[k] 0

def Reached (k : ℕ) : Prop := ∀ j ≤ k, visited c t j < t.length

end Loop

/-- The loop ends, its start increases on every turn, the intervals of the
chunks cover the text, and consecutive ones share at most the overlap. -/
def Sound (c : Chunker) (t : Text) : Prop :=
  (∀ k, Reached c t k → visited c t k < visited c t (k+1)) ∧
  ∃ n chunks, loop c t n 0 0 = some chunks ∧
    (∀ i : ℤ, 0 ≤ i → i < t.length → ∃ d ∈ chunks, d.startChar ≤ i ∧ i < d.endChar) ∧
    chunks.IsChain (fun d e => d.endChar-e.startChar ≤ overlapChars c)

/-- The end of the window is the end of the text or more than the overlap after
its start. -/
def Advances (c : Chunker) (t : Text) (start : ℤ) : Prop :=
  stop c t start = t.length ∨ start+overlapChars c < stop c t start

section Turn

variable {c : Chunker} {t : Text}

theorem chars_pos (c : Chunker) : 4 ≤ charsPerChunk c := by
  have h := c.admitted
  unfold charsPerChunk
  omega

theorem stop_le (c : Chunker) (t : Text) (start : ℤ) (h : 0 ≤ start) : stop c t start ≤ t.length := by
  have hc := chars_pos c
  unfold stop
  simp only
  split_ifs with hlt hsp
  · have hbounds := rfind_bounds (t := t) (c := letter ' ') (a := start+charsPerChunk c/2)
      (b := min (start+charsPerChunk c) t.length) (by omega) (by omega) (by omega) (by omega)
    omega
  · exact hlt.le
  · exact min_le_right _ _

theorem lt_stop {start : ℤ} (h : start < t.length) : start < stop c t start := by
  have hc := chars_pos c
  unfold stop
  simp only
  split_ifs with hlt hsp
  · exact hsp
  · omega
  · omega

theorem next_le_stop (start : ℤ) : next c t start ≤ stop c t start := by
  unfold next overlapChars
  split
  · omega
  · exact le_rfl

theorem next_gt_iff {start : ℤ} (h : start < t.length) (hpos : 0 ≤ start) :
    start < next c t start ↔ Advances c t start := by
  have hstop := lt_stop (c := c) h
  have hle := stop_le c t start hpos
  unfold next Advances
  split
  · omega
  · exact iff_of_true hstop (.inl (by omega))

/-- Where the window advances, the next one shares at most the overlap with it. -/
theorem stop_sub_next (start : ℤ) : stop c t start-next c t start ≤ overlapChars c := by
  have ho : 0 ≤ overlapChars c := by unfold overlapChars; omega
  unfold next
  split <;> omega

end Turn

section Run

variable {c : Chunker} {t : Text}

theorem visited_succ (k : ℕ) : visited c t (k+1) = next c t (visited c t k) :=
  Function.iterate_succ_apply' _ _ _

theorem reached_succ {k : ℕ} (h : Reached c t (k+1)) : Reached c t k :=
  fun j hj => h j (by omega)

/-- Where all turns advance, the starts are at least the number of turns. -/
theorem le_visited (h : ∀ k, Reached c t k → Advances c t (visited c t k)) :
    ∀ k, (∀ j < k, Reached c t j) → (k:ℤ) ≤ visited c t k := by
  intro k
  induction k with
  | zero => exact fun _ => le_rfl
  | succ k ih =>
    intro hr
    have hk := ih (fun j hj => hr j (by omega))
    have hreach := hr k (by omega)
    have hlt := (next_gt_iff (hreach k le_rfl) (by omega)).mpr (h k hreach)
    rw [visited_succ]
    push_cast
    omega

theorem loop_isSome (n : ℕ) (s : ℤ) (index : ℕ) (h : ∃ k ≤ n, ¬ (next c t)^[k] s < t.length) :
    ∃ chunks, loop c t n s index = some chunks := by
  induction n generalizing s index with
  | zero =>
    obtain ⟨k, hk, hend⟩ := h
    obtain rfl : k = 0 := by omega
    rw [Function.iterate_zero_apply] at hend
    exact ⟨[], by rw [loop, if_neg hend]⟩
  | succ n ih =>
    by_cases hs : s < t.length
    · obtain ⟨k, hk, hend⟩ := h
      obtain ⟨j, rfl⟩ : ∃ j, k = j+1 := by
        rcases k with _ | j
        · exact absurd hs hend
        · exact ⟨j, rfl⟩
      have hrest : ∃ k ≤ n, ¬ (next c t)^[k] (next c t s) < t.length := ⟨j, by omega, hend⟩
      rw [loop, if_pos hs]
      split
      · exact ih _ index hrest
      · obtain ⟨chunks, hc⟩ := ih _ (index+1) hrest
        exact ⟨_, by rw [hc]; rfl⟩
    · exact ⟨[], by rw [loop, if_neg hs]⟩

/-- The chunks are those of the windows with more than white space. -/
theorem mem_loop (n : ℕ) (s : ℤ) (index : ℕ) (chunks : List ChunkResult)
    (h : loop c t n s index = some chunks) (a b : ℤ) :
    (∃ d ∈ chunks, d.startChar = a ∧ d.endChar = b) ↔
      ∃ k, (∀ j ≤ k, (next c t)^[j] s < t.length) ∧ a = (next c t)^[k] s ∧
        b = stop c t a ∧ window c t a ≠ [] := by
  induction n generalizing s index chunks with
  | zero =>
    rw [loop] at h
    split at h
    · cases h
    · next hs =>
      cases h
      refine iff_of_false (by simp) ?_
      rintro ⟨k, hk, -⟩
      exact hs (hk 0 (Nat.zero_le k))
  | succ n ih =>
    rw [loop] at h
    by_cases hs : s < t.length
    · have hsplit : (∃ k, (∀ j ≤ k, (next c t)^[j] s < t.length) ∧ a = (next c t)^[k] s ∧
          b = stop c t a ∧ window c t a ≠ []) ↔
          (a = s ∧ b = stop c t s ∧ window c t s ≠ []) ∨
          ∃ k, (∀ j ≤ k, (next c t)^[j] (next c t s) < t.length) ∧
            a = (next c t)^[k] (next c t s) ∧ b = stop c t a ∧ window c t a ≠ [] := by
        constructor
        · rintro ⟨k, hk, ha, hb, hw⟩
          rcases k with _ | k
          · rw [Function.iterate_zero_apply] at ha
            subst ha
            exact .inl ⟨rfl, hb, hw⟩
          · exact .inr ⟨k, fun j hj => hk (j+1) (by omega), ha, hb, hw⟩
        · rintro (⟨rfl, hb, hw⟩ | ⟨k, hk, ha, hb, hw⟩)
          · exact ⟨0, fun j hj => by rw [Nat.le_zero.mp hj]; exact hs, rfl, hb, hw⟩
          · refine ⟨k+1, fun j hj => ?_, ha, hb, hw⟩
            rcases j with _ | j
            · exact hs
            · exact hk j (by omega)
      rw [hsplit]
      rw [if_pos hs] at h
      split at h
      · next hblank =>
        rw [ih _ _ _ h]
        exact (or_iff_right (fun hl => hl.2.2 hblank)).symm
      · next hfull =>
        obtain ⟨rest, hrest, rfl⟩ := Option.map_eq_some_iff.mp h
        rw [← ih _ _ _ hrest, List.exists_mem_cons_iff]
        refine or_congr_left ?_
        constructor
        · rintro ⟨rfl, rfl⟩
          exact ⟨rfl, rfl, hfull⟩
        · rintro ⟨rfl, rfl, -⟩
          exact ⟨rfl, rfl⟩
    · rw [if_neg hs] at h
      cases h
      refine iff_of_false (by simp) ?_
      rintro ⟨k, hk, -⟩
      exact hs (hk 0 (Nat.zero_le k))

/-- The windows cover the rest of the text. -/
theorem windows_cover (n : ℕ) (s : ℤ) (hend : ¬ (next c t)^[n] s < t.length) (i : ℤ) (hs : s ≤ i)
    (hi : i < t.length) : ∃ k, (∀ j ≤ k, (next c t)^[j] s < t.length) ∧ (next c t)^[k] s ≤ i ∧
      i < stop c t ((next c t)^[k] s) := by
  induction n generalizing s with
  | zero => exact absurd (hs.trans_lt hi) hend
  | succ n ih =>
    by_cases hstop : i < stop c t s
    · exact ⟨0, fun j hj => by rw [Nat.le_zero.mp hj]; exact hs.trans_lt hi, hs, hstop⟩
    · obtain ⟨k, hk, hle, hlt⟩ := ih (next c t s) hend ((next_le_stop s).trans (not_lt.mp hstop))
      refine ⟨k+1, fun j hj => ?_, hle, hlt⟩
      rcases j with _ | j
      · exact hs.trans_lt hi
      · exact hk j (by omega)

/-- Where the starts increase, consecutive chunks share at most the overlap. -/
theorem loop_chain (n : ℕ) (s : ℤ) (index : ℕ) (chunks : List ChunkResult)
    (hinc : ∀ k, (∀ j ≤ k, (next c t)^[j] s < t.length) →
      (next c t)^[k] s < (next c t)^[k+1] s)
    (h : loop c t n s index = some chunks) :
    (∀ d ∈ chunks, s ≤ d.startChar) ∧
      chunks.IsChain (fun d e => d.endChar-e.startChar ≤ overlapChars c) := by
  induction n generalizing s index chunks with
  | zero =>
    rw [loop] at h
    split at h
    · cases h
    · cases h
      simp
  | succ n ih =>
    rw [loop] at h
    by_cases hs : s < t.length
    · rw [if_pos hs] at h
      have hlt : s < next c t s :=
        hinc 0 (fun j hj => by rw [Nat.le_zero.mp hj]; exact hs)
      have hinc' : ∀ k, (∀ j ≤ k, (next c t)^[j] (next c t s) < t.length) →
          (next c t)^[k] (next c t s) < (next c t)^[k+1] (next c t s) := by
        intro k hk
        refine hinc (k+1) (fun j hj => ?_)
        rcases j with _ | j
        · exact hs
        · exact hk j (by omega)
      split at h
      · obtain ⟨hstart, hchain⟩ := ih _ _ _ hinc' h
        exact ⟨fun d hd => hlt.le.trans (hstart d hd), hchain⟩
      · obtain ⟨rest, hrest, rfl⟩ := Option.map_eq_some_iff.mp h
        obtain ⟨hstart, hchain⟩ := ih _ _ _ hinc' hrest
        refine ⟨fun d hd => ?_, ?_⟩
        · rcases List.mem_cons.mp hd with rfl | hd
          · exact le_rfl
          · exact hlt.le.trans (hstart d hd)
        · rcases rest with _ | ⟨e, rest⟩
          · exact List.isChain_singleton _
          · refine List.isChain_cons_cons.mpr ⟨?_, hchain⟩
            have hnext := hstart e List.mem_cons_self
            have hsub := stop_sub_next (c := c) (t := t) s
            change stop c t s-e.startChar ≤ _
            omega
    · rw [if_neg hs] at h
      cases h
      simp

/-- The loop is sound exactly when every window it reaches advances, and the
characters of a window of white space lie in other windows too. -/
theorem chunks_sound_iff (c : Chunker) (t : Text) : Sound c t ↔
    ∀ k, Reached c t k → Advances c t (visited c t k) ∧
      (window c t (visited c t k) = [] → ∀ i : ℤ, visited c t k ≤ i → i < stop c t (visited c t k) →
        ∃ j, Reached c t j ∧ visited c t j ≤ i ∧ i < stop c t (visited c t j) ∧
          window c t (visited c t j) ≠ []) := by
  constructor
  · rintro ⟨hinc, n, chunks, hloop, hcover, -⟩
    have hpos : ∀ k, Reached c t k → 0 ≤ visited c t k := by
      intro k
      induction k with
      | zero => exact fun _ => le_rfl
      | succ k ih =>
        intro hk
        have hprev := ih (reached_succ hk)
        exact hprev.trans (hinc k (reached_succ hk)).le
    intro k hk
    have hadv : Advances c t (visited c t k) := by
      rw [← next_gt_iff (hk k le_rfl) (hpos k hk), ← visited_succ]
      exact hinc k hk
    refine ⟨hadv, fun _ i hi hstop => ?_⟩
    have hlen := hstop.trans_le (stop_le c t _ (hpos k hk))
    obtain ⟨d, hd, hstart, hend⟩ := hcover i ((hpos k hk).trans hi) hlen
    obtain ⟨j, hj, ha, hb, hw⟩ := (mem_loop n 0 0 chunks hloop d.startChar d.endChar).mp ⟨d, hd, rfl, rfl⟩
    rw [ha] at hstart hb hw
    rw [hb] at hend
    exact ⟨j, hj, hstart, hend, hw⟩
  · intro h
    have hle := le_visited (fun k hk => (h k hk).1)
    have hpos : ∀ k, Reached c t k → 0 ≤ visited c t k := by
      intro k hk
      have hk' := hle k (fun j hj i hi => hk i (by omega))
      omega
    have hinc : ∀ k, Reached c t k → visited c t k < visited c t (k+1) := by
      intro k hk
      rw [visited_succ]
      exact (next_gt_iff (hk k le_rfl) (hpos k hk)).mpr (h k hk).1
    have hend : ∃ k ≤ t.length, ¬ visited c t k < t.length := by
      by_contra hall
      have hreach : ∀ k ≤ t.length, visited c t k < t.length := by
        intro k hk
        by_contra hn
        exact hall ⟨k, hk, hn⟩
      have hlast := hle t.length (fun j hj i hi => hreach i (by omega))
      exact absurd (hreach _ le_rfl) (not_lt.mpr hlast)
    obtain ⟨chunks, hloop⟩ := loop_isSome (c := c) t.length 0 0 hend
    refine ⟨hinc, t.length, chunks, hloop, fun i hi hlen => ?_, (loop_chain _ 0 0 chunks ?_ hloop).2⟩
    · obtain ⟨m, -, hm⟩ := hend
      obtain ⟨k, hk, hstart, hstop⟩ := windows_cover m 0 hm i hi hlen
      have hfull : ∃ j, Reached c t j ∧ visited c t j ≤ i ∧ i < stop c t (visited c t j) ∧
          window c t (visited c t j) ≠ [] := by
        by_cases hw : window c t (visited c t k) = []
        · exact (h k hk).2 hw i hstart hstop
        · exact ⟨k, hk, hstart, hstop, hw⟩
      obtain ⟨j, hj, hstart, hstop, hw⟩ := hfull
      obtain ⟨d, hd, hs, he⟩ := (mem_loop _ 0 0 chunks hloop _ _).mpr ⟨j, hj, rfl, rfl, hw⟩
      exact ⟨d, hd, hs ▸ hstart, he ▸ hstop⟩
    · exact hinc

theorem advances_of_small {start : ℤ} (hc : 2*c.chunkOverlap < c.chunkSize) (hpos : 0 ≤ start)
    (hs : start < t.length) : Advances c t start := by
  unfold Advances stop
  have hsize : charsPerChunk c/2 = c.chunkSize*2 := by unfold charsPerChunk; omega
  have ho : overlapChars c = c.chunkOverlap*4 := rfl
  have hn : charsPerChunk c = c.chunkSize*4 := rfl
  simp only
  split_ifs with hlt hsp
  · have hbounds := rfind_bounds (t := t) (c := letter ' ') (a := start+charsPerChunk c/2)
      (b := min (start+charsPerChunk c) t.length) (by omega) (by omega) (by omega) (by omega)
    omega
  · omega
  · omega

def halfway (c : Chunker) : Text :=
  List.replicate (2*c.chunkSize) (letter 'a')++letter ' ' ::
    List.replicate (4*c.chunkSize) (letter 'a')

theorem halfway_stop (c : Chunker) : stop c (halfway c) 0 = 2*c.chunkSize := by
  have hc := c.admitted
  have hlen : (halfway c).length = 6*c.chunkSize+1 := by
    simp only [halfway, List.length_append, List.length_cons, List.length_replicate]
    omega
  have hn : charsPerChunk c = c.chunkSize*4 := rfl
  have hfound : rfind (halfway c) (letter ' ') (0+charsPerChunk c/2)
      (min (0+charsPerChunk c) (halfway c).length) = (2*c.chunkSize : ℕ) := by
    refine rfind_eq ?_ ?_ ?_ (fun q hq => ?_)
    · rw [adjust_of_nonneg (by omega) (by omega)]
      omega
    · rw [adjust_of_nonneg (by omega) (by omega)]
      omega
    · rw [halfway, List.getElem?_append_right (by simp), List.length_replicate, Nat.sub_self]
      rfl
    · intro hsome
      rw [halfway, List.getElem?_append_right (by simp; omega), List.length_replicate] at hsome
      obtain ⟨r, hr⟩ := Nat.exists_eq_add_of_lt hq
      rw [hr, show 2*c.chunkSize+r+1-2*c.chunkSize = r+1 by omega, List.getElem?_cons_succ] at hsome
      exact absurd (List.eq_of_mem_replicate (List.mem_of_getElem? hsome)) (by decide)
  unfold stop
  simp only [hfound]
  rw [if_pos (by omega), if_pos (by omega)]
  push_cast
  rfl

/-- Every text is walked through exactly when the overlap is less than half of
the chunk size. -/
theorem always_advances_iff (c : Chunker) :
    (∀ t k, Reached c t k → Advances c t (visited c t k)) ↔ 2*c.chunkOverlap < c.chunkSize := by
  constructor
  · intro h
    have hlen : ((halfway c).length : ℤ) = 6*c.chunkSize+1 := by
      simp only [halfway, List.length_append, List.length_cons, List.length_replicate]
      push_cast
      ring
    have hstart : visited c (halfway c) 0 = 0 := rfl
    have hreach : Reached c (halfway c) 0 := by
      intro j hj
      rw [Nat.le_zero.mp hj, hstart, hlen]
      omega
    have hadv := h _ 0 hreach
    rw [hstart, Advances, halfway_stop, hlen] at hadv
    unfold overlapChars at hadv
    omega
  · intro hc t k
    have hpos : ∀ k, Reached c t k → 0 ≤ visited c t k := by
      intro k
      induction k with
      | zero => exact fun _ => le_rfl
      | succ k ih =>
        intro hk
        have hprev := ih (reached_succ hk)
        have hlt := hk k (by omega)
        rw [visited_succ]
        exact hprev.trans ((next_gt_iff hlt hprev).mpr (advances_of_small hc hprev hlt)).le
    exact fun hk => advances_of_small hc (hpos k hk) (hk k le_rfl)

end Run

namespace Stuck

def chunker : Chunker := ⟨2,1,by decide⟩

def words : Text := text "aaaa bbbbb"

/-- With chunks of two tokens and an overlap of one, a word of four characters
is taken again and again. -/
theorem stuck_on_a_word : ¬ Sound chunker words := by
  have hnext : next chunker words 0 = 0 := by decide
  have hwindow : window chunker words 0 ≠ [] := by decide
  have hlen : (0:ℤ) < words.length := by decide
  have hnone : ∀ n index, loop chunker words n 0 index = none := by
    intro n
    induction n with
    | zero => exact fun index => if_pos hlen
    | succ n ih =>
      intro index
      rw [loop, if_pos hlen, if_neg hwindow, hnext, ih]
      rfl
  rintro ⟨-, n, chunks, h, -⟩
  rw [hnone] at h
  cases h

end Stuck

end Fixed

end Uru.Chunking
