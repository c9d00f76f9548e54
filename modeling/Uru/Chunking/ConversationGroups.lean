import Uru.Chunking.Conversation

/-!
# What a conversation group holds

Messages whose timestamps are of one kind are grouped, others raise. Every
message is in one group. A group is made of consecutive parts, each a slice of a
thread or of a window in which no gap is too long, and parts are merged only
where one of them is too small. Among groups in the order of time, sessions
change exactly at the session gaps.
-/

set_option autoImplicit false

namespace Uru.Chunking.Conversation

open Uru.Lib

variable {cfg : ConversationChunkerConfig}

def OneKind (messages : Group) : Prop :=
  (∀ m ∈ messages, ∃ clock, m.timestamp = .naive clock) ∨
    ∀ m ∈ messages, ∃ clock utcoffset, m.timestamp = .aware clock utcoffset

theorem comparable_symm {a b : SlackMessage} (h : a.timestamp.comparable b.timestamp = true) :
    b.timestamp.comparable a.timestamp = true := by
  revert h
  rcases a.timestamp with _ | _ | _ <;> rcases b.timestamp with _ | _ | _ <;>
    simp [Timestamp.comparable]

theorem comparable_iff {ms : Group} : comparable ms = true ↔
    ms.Pairwise (fun a b => a.timestamp.comparable b.timestamp = true) :=
  decide_eq_true_iff

theorem comparable_perm {ms ms' : Group} (h : ms.Perm ms') (hc : comparable ms = true) :
    comparable ms' = true :=
  comparable_iff.mpr ((comparable_iff.mp hc).perm h comparable_symm)

theorem comparable_sublist {ms ms' : Group} (h : ms'.Sublist ms) (hc : comparable ms = true) :
    comparable ms' = true :=
  comparable_iff.mpr ((comparable_iff.mp hc).sublist h)

theorem comparable_of_oneKind {ms : Group} (h : OneKind ms) : comparable ms = true := by
  refine comparable_iff.mpr (List.pairwise_of_forall_mem_list (fun a ha b hb => ?_))
  rcases h with h | h
  · obtain ⟨_, hat⟩ := h a ha
    obtain ⟨_, hbt⟩ := h b hb
    rw [hat, hbt, Timestamp.comparable]
  · obtain ⟨_, _, hat⟩ := h a ha
    obtain ⟨_, _, hbt⟩ := h b hb
    rw [hat, hbt, Timestamp.comparable]

theorem naive_comparable {clock : ℤ} {t : Timestamp}
    (h : (Timestamp.naive clock).comparable t = true) : ∃ clock, t = .naive clock := by
  cases t with
  | null => exact absurd h (by simp [Timestamp.comparable])
  | naive clock' => exact ⟨clock', rfl⟩
  | aware _ _ => exact absurd h (by simp [Timestamp.comparable])

theorem aware_comparable {clock utcoffset : ℤ} {t : Timestamp}
    (h : (Timestamp.aware clock utcoffset).comparable t = true) :
    ∃ clock utcoffset, t = .aware clock utcoffset := by
  cases t with
  | null => exact absurd h (by simp [Timestamp.comparable])
  | naive _ => exact absurd h (by simp [Timestamp.comparable])
  | aware clock' utcoffset' => exact ⟨clock', utcoffset', rfl⟩

theorem oneKind_of_comparable {ms : Group} (hc : comparable ms = true)
    (hnull : ∀ m ∈ ms, m.timestamp ≠ .null) : OneKind ms := by
  cases ms with
  | nil => exact .inl (by simp)
  | cons a ms =>
    have hrest := (List.pairwise_cons.mp (comparable_iff.mp hc)).1
    rcases ha : a.timestamp with _ | clock | ⟨clock, utcoffset⟩
    · exact absurd ha (hnull a List.mem_cons_self)
    · refine .inl (fun b hb => ?_)
      rcases List.mem_cons.mp hb with rfl | hb
      · exact ⟨clock, ha⟩
      · exact naive_comparable (ha ▸ hrest b hb)
    · refine .inr (fun b hb => ?_)
      rcases List.mem_cons.mp hb with rfl | hb
      · exact ⟨clock, utcoffset, ha⟩
      · exact aware_comparable (ha ▸ hrest b hb)

structure Collected (ms : Group) (s : List (String × Group) × Group) : Prop where
  keys : (s.1.map Prod.fst).Nodup
  perm : ((s.1.map Prod.snd).flatten++s.2).Perm ms
  threads : ∀ t ∈ s.1, t.2 ≠ [] ∧ t.2.Sublist ms ∧ ∀ m ∈ t.2, m.thread = some t.1
  top : s.2.Sublist ms ∧ ∀ m ∈ s.2, m.thread = none

theorem append_perm {threads : List (String × Group)} (h : (threads.map Prod.fst).Nodup)
    (ts : String) (m : SlackMessage) :
    ((append threads ts m).map Prod.snd).flatten.Perm ((threads.map Prod.snd).flatten++[m]) := by
  unfold append
  split
  · next hts =>
    induction threads with
    | nil => simp at hts
    | cons t threads ih =>
      obtain ⟨ht, hrest⟩ := List.nodup_cons.mp h
      by_cases heq : t.1 = ts
      · have hmiss : threads.map (fun t => if t.1 = ts then (t.1,t.2++[m]) else t) = threads := by
          refine (List.map_congr_left (fun u hu => if_neg ?_)).trans (List.map_id' threads)
          rintro rfl
          exact ht (heq ▸ List.mem_map_of_mem hu)
        rw [List.map_cons, if_pos heq, hmiss]
        simp only [List.map_cons, List.flatten_cons, List.append_assoc]
        exact List.perm_append_comm.append_left t.2
      · rw [List.map_cons, if_neg heq]
        simp only [List.map_cons, List.flatten_cons, List.append_assoc]
        refine (ih hrest ?_).append_left t.2
        exact (List.mem_cons.mp hts).resolve_left (fun hc => heq hc.symm)
  · simp

theorem append_keys {threads : List (String × Group)} (h : (threads.map Prod.fst).Nodup)
    (ts : String) (m : SlackMessage) : ((append threads ts m).map Prod.fst).Nodup := by
  unfold append
  split
  · have hkeys : (threads.map (fun t => if t.1 = ts then (t.1,t.2++[m]) else t)).map Prod.fst =
        threads.map Prod.fst := by
      rw [List.map_map]
      refine List.map_congr_left (fun t _ => ?_)
      dsimp only [Function.comp]
      split
      · rfl
      · rfl
    rw [hkeys]
    exact h
  · next hts =>
    rw [List.map_append, List.nodup_append]
    refine ⟨h, List.nodup_singleton _, fun a ha b hb => ?_⟩
    rw [List.map_singleton, List.mem_singleton] at hb
    rintro rfl
    exact hts ((show a = ts from hb) ▸ ha)

theorem mem_append {threads : List (String × Group)} {ts : String} {m : SlackMessage}
    {t : String × Group} (h : t ∈ append threads ts m) :
    t ∈ threads ∨ t = (ts,[m]) ∨ ∃ u ∈ threads, u.1 = ts ∧ t = (u.1,u.2++[m]) := by
  unfold append at h
  split at h
  · obtain ⟨u, hu, rfl⟩ := List.mem_map.mp h
    split
    · next heq => exact .inr (.inr ⟨u, hu, heq, rfl⟩)
    · exact .inl hu
  · exact (List.mem_append.mp h).imp_right (fun ht => .inl (List.mem_singleton.mp ht))

theorem collected_step {ms : Group} {s : List (String × Group) × Group} (h : Collected ms s)
    (m : SlackMessage) : Collected (ms++[m]) (collect s m) := by
  have hold : ∀ l : Group, l.Sublist ms → l.Sublist (ms++[m]) :=
    fun l hl => hl.trans (List.sublist_append_left ms [m])
  have hnew : ∀ l : Group, l.Sublist ms → (l++[m]).Sublist (ms++[m]) :=
    fun l hl => hl.append (List.Sublist.refl [m])
  unfold collect
  rcases hm : m.thread with _ | ts
  · dsimp only
    refine ⟨h.keys, ?_, fun t ht => ?_, hnew _ h.top.1, fun x hx => ?_⟩
    · rw [← List.append_assoc]
      exact h.perm.append_right [m]
    · obtain ⟨hne, hsub, hthread⟩ := h.threads t ht
      exact ⟨hne, hold _ hsub, hthread⟩
    · rcases List.mem_append.mp hx with hx | hx
      · exact h.top.2 x hx
      · rw [List.mem_singleton.mp hx, hm]
  · dsimp only
    refine ⟨append_keys h.keys ts m, ?_, fun t ht => ?_, hold _ h.top.1, h.top.2⟩
    · refine ((append_perm h.keys ts m).append_right s.2).trans ?_
      rw [List.append_assoc]
      refine (List.perm_append_comm.append_left _).trans ?_
      rw [← List.append_assoc]
      exact h.perm.append_right [m]
    · rcases mem_append ht with ht | rfl | ⟨u, hu, rfl, rfl⟩
      · obtain ⟨hne, hsub, hthread⟩ := h.threads t ht
        exact ⟨hne, hold _ hsub, hthread⟩
      · refine ⟨List.cons_ne_nil m [], List.sublist_append_right ms [m], fun x hx => ?_⟩
        rw [List.mem_singleton.mp hx, hm]
      · obtain ⟨-, hsub, hthread⟩ := h.threads u hu
        refine ⟨by simp, hnew _ hsub, fun x hx => ?_⟩
        rcases List.mem_append.mp hx with hx | hx
        · exact hthread x hx
        · rw [List.mem_singleton.mp hx, hm]

theorem collected (ms : Group) : Collected ms (ms.foldl collect ([],[])) := by
  induction ms using List.reverseRecOn with
  | nil => exact ⟨List.nodup_nil, List.Perm.refl _, nofun, List.Sublist.refl _, nofun⟩
  | append_singleton ms m ih =>
    rw [List.foldl_append]
    exact collected_step ih m

theorem flatten_slices {n : ℕ} {h : 0 < n} (g : Group) : (slices n h g).flatten = g := by
  induction g using slices.induct n h with
  | case1 => rw [slices]; rfl
  | case2 m ms ih => rw [slices, List.flatten_cons, ih, List.take_append_drop]

theorem mem_slices {n : ℕ} {h : 0 < n} {g p : Group} (hp : p ∈ slices n h g) :
    p ≠ [] ∧ p.length ≤ n ∧ p <:+: g := by
  induction g using slices.induct n h with
  | case1 => rw [slices] at hp; cases hp
  | case2 m ms ih =>
    rw [slices] at hp
    rcases List.mem_cons.mp hp with rfl | hp
    · refine ⟨?_, List.length_take_le n _, (List.take_prefix n _).isInfix⟩
      rw [Ne, List.take_eq_nil_iff, not_or]
      exact ⟨h.ne', List.cons_ne_nil m ms⟩
    · obtain ⟨hne, hlen, hinfix⟩ := ih hp
      exact ⟨hne, hlen, hinfix.trans (List.drop_suffix n _).isInfix⟩

theorem flatten_splitOversized (gs : List Group) : (splitOversized cfg gs).flatten = gs.flatten := by
  induction gs with
  | nil => rfl
  | cons g gs ih =>
    rw [splitOversized, List.flatMap_cons, List.flatten_append, List.flatten_cons]
    refine congrArg₂ (·++·) ?_ ih
    split
    · exact List.append_nil g
    · exact flatten_slices g

theorem mem_splitOversized {gs : List Group} (hgs : ∀ g ∈ gs, g ≠ []) {p : Group}
    (hp : p ∈ splitOversized cfg gs) :
    p ≠ [] ∧ p.length ≤ cfg.maxGroupSize ∧ ∃ g ∈ gs, p <:+: g := by
  obtain ⟨g, hg, hpg⟩ := List.mem_flatMap.mp hp
  split at hpg
  · next hlen =>
    obtain rfl := List.mem_singleton.mp hpg
    exact ⟨hgs p hg, hlen, p, hg, List.infix_rfl⟩
  · obtain ⟨hne, hlen, hinfix⟩ := mem_slices hpg
    exact ⟨hne, hlen, g, hg, hinfix⟩

def sorted (messages : Group) : Group := sortOn SlackMessage.instant messages

theorem sort_eq {ms : Group} (hc : comparable ms = true) : sort ms = .ok (sorted ms) := by
  rw [sort, if_pos hc]
  rfl

theorem sort_sorted {ms g : Group} (hc : comparable ms = true) (h : g.Sublist (sorted ms)) :
    sort g = .ok g := by
  have hg : comparable g = true :=
    comparable_sublist h (comparable_perm (sortOn_perm SlackMessage.instant ms).symm hc)
  rw [sort_eq hg, sorted, sortOn,
    List.Pairwise.insertionSort_eq ((sortOn_pairwise SlackMessage.instant ms).sublist h)]

theorem mapM_ok {α : Type} {f : α → Except Raised α} (l : List α) (h : ∀ a ∈ l, f a = .ok a) :
    l.mapM f = .ok l := by
  induction l with
  | nil => rfl
  | cons a l ih =>
    rw [List.mapM_cons, h a List.mem_cons_self, ih (fun b hb => h b (List.mem_cons_of_mem a hb))]
    rfl

def collection (messages : Group) : List (String × Group) × Group :=
  (sorted messages).foldl collect ([],[])

theorem groupByThreads_eq {messages : Group} (hc : comparable messages = true) :
    groupByThreads (sorted messages) = .ok (collection messages) := by
  have hthreads : (collection messages).1.mapM (fun t => do return (t.1,← sort t.2)) =
      .ok (collection messages).1 := by
    refine mapM_ok _ (fun t ht => ?_)
    rw [sort_sorted hc ((collected (sorted messages)).threads t ht).2.1]
    rfl
  show ((collection messages).1.mapM _ >>= _) = _
  rw [hthreads]
  rfl

def whole (cfg : ConversationChunkerConfig) (messages : Group) : List Group :=
  (collection messages).1.map Prod.snd++
    splitByTimeGaps (collection messages).2 cfg.timeGapMinutes

theorem parts_eq {messages : Group} (hc : comparable messages = true) :
    parts cfg messages = .ok (splitOversized cfg (whole cfg messages)) := by
  rw [parts, sort_eq hc]
  show (groupByThreads (sorted messages) >>= _) = _
  rw [groupByThreads_eq hc]
  rfl

/-- The part is of one thread, or of messages outside of threads without a gap
between two that follow one another. -/
def Coherent (cfg : ConversationChunkerConfig) (p : Group) : Prop :=
  (∃ ts, ∀ m ∈ p, m.thread = some ts) ∨
    (∀ m ∈ p, m.thread = none) ∧
      p.IsChain (fun prev m => m.instant-prev.instant ≤ minutes cfg.timeGapMinutes)

theorem mem_whole {messages g : Group} (hg : g ∈ whole cfg messages) :
    g ≠ [] ∧ g.Sublist (sorted messages) ∧ Coherent cfg g := by
  have h := collected (sorted messages)
  rcases List.mem_append.mp hg with hg | hg
  · obtain ⟨t, ht, rfl⟩ := List.mem_map.mp hg
    obtain ⟨hne, hsub, hthread⟩ := h.threads t ht
    exact ⟨hne, hsub, .inl ⟨t.1, hthread⟩⟩
  · have hsub : g.Sublist (collection messages).2 := by
      conv_rhs => rw [← List.flatten_splitBy (fun prev m : SlackMessage =>
        m.instant-prev.instant ≤ minutes cfg.timeGapMinutes) (collection messages).2]
      exact List.sublist_flatten_of_mem hg
    refine ⟨List.ne_nil_of_mem_splitBy hg, hsub.trans h.top.1,
      .inr ⟨fun m hm => h.top.2 m (hsub.subset hm), ?_⟩⟩
    exact (List.isChain_of_mem_splitBy hg).imp (fun _ _ hle => of_decide_eq_true hle)

theorem coherent_infix {p g : Group} (hp : p <:+: g) (h : Coherent cfg g) : Coherent cfg p := by
  rcases h with ⟨ts, hts⟩ | ⟨hnone, hchain⟩
  · exact .inl ⟨ts, fun m hm => hts m (hp.subset hm)⟩
  · exact .inr ⟨fun m hm => hnone m (hp.subset hm), hchain.infix hp⟩

/-- A part is bounded, in the order of the sorted messages, and coherent. -/
theorem mem_parts {messages p : Group} (hp : p ∈ splitOversized cfg (whole cfg messages)) :
    p ≠ [] ∧ p.Sublist (sorted messages) ∧ p.length ≤ cfg.maxGroupSize ∧ Coherent cfg p := by
  obtain ⟨hne, hlen, g, hg, hinfix⟩ := mem_splitOversized (fun g hg => (mem_whole hg).1) hp
  obtain ⟨-, hsub, hcoh⟩ := mem_whole hg
  exact ⟨hne, hinfix.sublist.trans hsub, hlen, coherent_infix hinfix hcoh⟩

theorem flatten_parts (messages : Group) :
    (splitOversized cfg (whole cfg messages)).flatten.Perm messages := by
  rw [flatten_splitOversized, whole, List.flatten_append, splitByTimeGaps, List.flatten_splitBy]
  exact (collected (sorted messages)).perm.trans (sortOn_perm _ messages)

/-- The groups are the runs of parts, and a run of several parts has one that
is too small. -/
def MergedFrom (minSize : ℤ) (runs : List (List Group)) : Prop :=
  ∀ r ∈ runs, r ≠ [] ∧ (2 ≤ r.length → ∃ p ∈ r, (p.length:ℤ) < minSize)

theorem mergeGroups_runs (minSize : ℤ) (gs : List Group) (run : List Group)
    (hrun : MergedFrom minSize [run]) : ∃ runs, runs.flatten = run++gs ∧
      mergeGroups minSize run.flatten gs = runs.map List.flatten ∧ MergedFrom minSize runs := by
  induction gs generalizing run with
  | nil => exact ⟨[run], by simp, rfl, hrun⟩
  | cons g gs ih =>
    obtain ⟨hne, htiny⟩ := hrun run (List.mem_singleton_self run)
    rw [mergeGroups]
    split
    · next hsmall =>
      have hmerged : MergedFrom minSize [run++[g]] := by
        intro r hr
        obtain rfl := List.mem_singleton.mp hr
        refine ⟨by simp, fun _ => ?_⟩
        rcases lt_or_ge run.length 2 with hlt | hge
        · obtain ⟨p, rfl⟩ := List.length_eq_one_iff.mp
            (show run.length = 1 by have := List.length_pos_iff.mpr hne; omega)
          rcases hsmall with hsmall | hsmall
          · exact ⟨p, by simp, by simpa using hsmall⟩
          · exact ⟨g, by simp, hsmall⟩
        · obtain ⟨p, hp, hlt⟩ := htiny hge
          exact ⟨p, List.mem_append_left _ hp, hlt⟩
      obtain ⟨runs, hflat, hmap, hruns⟩ := ih (run++[g]) hmerged
      refine ⟨runs, by simpa using hflat, ?_, hruns⟩
      rw [← hmap]
      simp
    · obtain ⟨runs, hflat, hmap, hruns⟩ := ih [g] (fun r hr => by
        obtain rfl := List.mem_singleton.mp hr
        exact ⟨by simp, fun h => by simp at h⟩)
      refine ⟨run::runs, by simp [hflat], ?_, fun r hr => ?_⟩
      · rw [List.map_cons, ← hmap]
        simp
      · rcases List.mem_cons.mp hr with rfl | hr
        · exact ⟨hne, htiny⟩
        · exact hruns r hr

theorem mergeLast_runs (minSize : ℤ) (runs : List (List Group)) (h : MergedFrom minSize runs) :
    ∃ runs', runs'.flatten = runs.flatten ∧
      mergeLast minSize (runs.map List.flatten) = runs'.map List.flatten ∧ MergedFrom minSize runs' := by
  induction runs with
  | nil => exact ⟨[], rfl, rfl, nofun⟩
  | cons r rs ih =>
    match rs with
    | [] => exact ⟨[r], rfl, rfl, h⟩
    | [last] =>
      rw [List.map_cons, List.map_singleton, mergeLast]
      split
      · next hsmall =>
        obtain ⟨hne, -⟩ := h last (by simp)
        obtain ⟨p, hp⟩ := List.exists_mem_of_ne_nil last hne
        refine ⟨[r++last], by simp, by simp, fun r' hr' => ?_⟩
        obtain rfl := List.mem_singleton.mp hr'
        refine ⟨by simp [hne], fun _ => ⟨p, List.mem_append_right _ hp, ?_⟩⟩
        have hle : p.length ≤ last.flatten.length := (List.sublist_flatten_of_mem hp).length_le
        omega
      · exact ⟨[r,last], rfl, rfl, h⟩
    | r'::r''::rest =>
      obtain ⟨runs', hflat, hmap, hruns⟩ := ih (fun x hx => h x (List.mem_cons_of_mem _ hx))
      refine ⟨r::runs', by simp [hflat], ?_, fun x hx => ?_⟩
      · exact congrArg (r.flatten::·) hmap
      · rcases List.mem_cons.mp hx with rfl | hx
        · exact h x List.mem_cons_self
        · exact hruns x hx

theorem mergeUndersized_runs (minSize : ℤ) (gs : List Group) : ∃ runs, runs.flatten = gs ∧
    mergeUndersized minSize gs = runs.map List.flatten ∧ MergedFrom minSize runs := by
  cases gs with
  | nil => exact ⟨[], rfl, rfl, nofun⟩
  | cons g gs =>
    obtain ⟨runs, hflat, hmap, hruns⟩ := mergeGroups_runs minSize gs [g] (fun r hr => by
      obtain rfl := List.mem_singleton.mp hr
      exact ⟨by simp, fun h => by simp at h⟩)
    obtain ⟨runs', hflat', hmap', hruns'⟩ := mergeLast_runs minSize runs hruns
    refine ⟨runs', hflat'.trans hflat, ?_, hruns'⟩
    rw [mergeUndersized, ← hmap', ← hmap]
    simp

theorem length_number (session : ℕ) (prev : Group) (gs : List Group) :
    (number cfg session prev gs).length = gs.length := by
  induction gs generalizing session prev with
  | nil => rfl
  | cons g gs ih => rw [number, List.length_cons, ih, List.length_cons]

theorem length_session_ids (cfg : ConversationChunkerConfig) (gs : List Group) :
    (assignSessionIds cfg gs).length = gs.length := by
  cases gs with
  | nil => rfl
  | cons g gs => rw [assignSessionIds, List.length_cons, length_number, List.length_cons]

/-- The next session number is the same, or one more after a session gap. -/
theorem number_succ (session : ℕ) (prev : Group) (gs : List Group) (i : ℕ) {g h : Group}
    (hg : (prev::gs)[i]? = some g) (hh : (prev::gs)[i+1]? = some h) :
    ∃ n, (session::number cfg session prev gs)[i]? = some n ∧
      (session::number cfg session prev gs)[i+1]? = some (if separated cfg g h then n+1 else n) := by
  induction gs generalizing session prev i with
  | nil => simp at hh
  | cons g' gs ih =>
    cases i with
    | zero =>
      obtain rfl := Option.some.inj hg
      obtain rfl : g' = h := by simpa using hh
      exact ⟨session, rfl, rfl⟩
    | succ i => exact ih _ g' i hg hh

/-- Two groups have the same session id exactly when no two groups that follow
one another between them are separated by a session gap. -/
theorem same_session_iff (gs : List Group) (i d : ℕ) (h : i+d < gs.length) :
    ∃ m n, (assignSessionIds cfg gs)[i]? = some m ∧ (assignSessionIds cfg gs)[i+d]? = some n ∧
      m ≤ n ∧ (m = n ↔ ∀ k, i ≤ k → k < i+d → ∀ g g', gs[k]? = some g → gs[k+1]? = some g' →
        separated cfg g g' = false) := by
  induction d with
  | zero =>
    have hlt : i < (assignSessionIds cfg gs).length := by rw [length_session_ids]; exact h
    refine ⟨_, _, List.getElem?_eq_getElem hlt, List.getElem?_eq_getElem hlt, le_rfl,
      iff_of_true rfl (fun k h₁ h₂ => ?_)⟩
    omega
  | succ d ih =>
    obtain ⟨m, n, hm, hn, hle, hiff⟩ := ih (by omega)
    obtain ⟨first, rest, rfl⟩ : ∃ first rest, gs = first::rest := by
      cases gs with
      | nil => simp at h
      | cons first rest => exact ⟨first, rest, rfl⟩
    have hg := List.getElem?_eq_getElem (show i+d < (first::rest).length by omega)
    have hg' := List.getElem?_eq_getElem (show i+d+1 < (first::rest).length from h)
    have hnumber := @number_succ cfg 0 first rest (i+d) _ _ hg hg'
    obtain ⟨n', hn', hsucc⟩ := hnumber
    rw [assignSessionIds] at hn
    obtain rfl := Option.some.inj (hn.symm.trans hn')
    refine ⟨m, _, hm, hsucc, ?_, ?_⟩
    · split
      · exact hle.trans (Nat.le_succ n)
      · exact hle
    · constructor
      · intro heq k hk hkd g g' hkg hkg'
        split at heq
        · omega
        · next hsep =>
          rcases Nat.lt_succ_iff_lt_or_eq.mp (show k < (i+d)+1 from hkd) with hlt | rfl
          · exact hiff.mp heq k hk hlt g g' hkg hkg'
          · rw [hg] at hkg
            rw [hg'] at hkg'
            obtain rfl := Option.some.inj hkg
            obtain rfl := Option.some.inj hkg'
            simpa using hsep
      · intro hall
        rw [if_neg (by rw [hall (i+d) (by omega) (by omega) _ _ hg hg']; exact Bool.false_ne_true)]
        exact hiff.mpr (fun k hk hkd => hall k hk (by omega))

def InOrder (prev curr : Group) : Prop := ∀ m ∈ prev, ∀ m' ∈ curr, m.instant ≤ m'.instant

theorem buildChunkResult_ok {c : Group × ℕ} (h : ∀ m ∈ c.1, m.timestamp ≠ .null) :
    buildChunkResult c = .ok c := by
  rw [buildChunkResult, if_neg]
  simpa using h

/-- A chunk of a message without a timestamp cannot be written. -/
theorem buildChunkResult_null {l : List (Group × ℕ)} {c : Group × ℕ} (hc : c ∈ l)
    {m : SlackMessage} (hm : m ∈ c.1) (hnull : m.timestamp = .null) :
    ∃ e, l.mapM buildChunkResult = .error e := by
  induction l with
  | nil => cases hc
  | cons d l ih =>
    rw [List.mapM_cons]
    rcases hd : buildChunkResult d with e | d'
    · exact ⟨e, rfl⟩
    · rcases List.mem_cons.mp hc with rfl | hc
      · rw [buildChunkResult, if_pos (by simpa using ⟨m, hm, hnull⟩)] at hd
        cases hd
      · obtain ⟨e, he⟩ := ih hc
        exact ⟨e, by rw [he]; rfl⟩

section chunks

variable (cfg) {messages : Group}

/-- All groups become chunks: none is empty. -/
theorem numbered_groups (messages : Group) (gs : List Group)
    (hgs : gs = mergeUndersized cfg.minGroupSize (splitOversized cfg (whole cfg messages))) :
    (gs.zip (assignSessionIds cfg gs)).filter (fun c => !c.1.isEmpty) =
        gs.zip (assignSessionIds cfg gs) ∧
      gs.flatten.Perm messages := by
  obtain ⟨runs, hflat, hmap, hruns⟩ :=
    mergeUndersized_runs cfg.minGroupSize (splitOversized cfg (whole cfg messages))
  rw [← hgs] at hmap
  constructor
  · refine List.filter_eq_self.mpr (fun c hc => ?_)
    obtain ⟨r, hr, hrc⟩ := List.mem_map.mp (hmap ▸ (List.of_mem_zip hc).1)
    obtain ⟨p, hp⟩ := List.exists_mem_of_ne_nil r (hruns r hr).1
    have hpart := hflat ▸ List.mem_flatten_of_mem hr hp
    have hne : c.1 ≠ [] := by
      rw [← hrc]
      exact fun hnil => (mem_parts hpart).1 (List.flatten_eq_nil_iff.mp hnil p hp)
    simpa using hne
  · rw [hmap, ← List.flatten_flatten, hflat]
    exact flatten_parts messages

theorem chunkMessages_eq (hc : comparable messages = true) (gs : List Group)
    (hgs : gs = mergeUndersized cfg.minGroupSize (splitOversized cfg (whole cfg messages))) :
    chunkMessages cfg messages =
      (gs.zip (assignSessionIds cfg gs)).mapM buildChunkResult := by
  rw [← (numbered_groups cfg messages gs hgs).1, chunkMessages, parts_eq hc, hgs]
  rfl

theorem chunkMessages_raises (h : ¬ OneKind messages) :
    ∃ e, chunkMessages cfg messages = .error e := by
  by_cases hc : comparable messages = true
  · have hnull : ∃ m ∈ messages, m.timestamp = .null := by
      by_contra hno
      push Not at hno
      exact h (oneKind_of_comparable hc hno)
    obtain ⟨m, hm, hnull⟩ := hnull
    rw [chunkMessages_eq cfg hc _ rfl]
    obtain ⟨g, hg, hmg⟩ := List.mem_flatten.mp
      ((numbered_groups cfg messages _ rfl).2.mem_iff.mpr hm)
    have hzip := List.map_fst_zip (le_of_eq (length_session_ids cfg
      (mergeUndersized cfg.minGroupSize (splitOversized cfg (whole cfg messages)))).symm)
    obtain ⟨c, hcm, rfl⟩ := List.mem_map.mp (hzip.symm ▸ hg)
    exact buildChunkResult_null hcm hmg hnull
  · refine ⟨.typeError, ?_⟩
    rw [chunkMessages, parts, sort, if_neg hc]
    rfl

end chunks

/-- Messages with timestamps of one kind are grouped, and all others raise. Every
message is in one group. A group is a run of consecutive parts, of which one is
too small where there are several; each part is bounded, in the order of time,
and from one thread or without a gap between two messages that follow one
another. Among groups in the order of time, session ids change exactly at
session gaps. -/
theorem groups_spec (cfg : ConversationChunkerConfig) (messages : Group) :
    (¬ OneKind messages ∧ ∃ e, chunkMessages cfg messages = .error e) ∨
    OneKind messages ∧ ∃ ps gs, parts cfg messages = .ok ps ∧
      chunkMessages cfg messages = .ok (gs.zip (assignSessionIds cfg gs)) ∧
      gs.flatten.Perm messages ∧
      (∃ runs : List (List Group), runs.flatten = ps ∧ gs = runs.map List.flatten ∧
        ∀ r ∈ runs, r ≠ [] ∧ (2 ≤ r.length → ∃ p ∈ r, (p.length:ℤ) < cfg.minGroupSize)) ∧
      (∀ p ∈ ps, p ≠ [] ∧ p.Sublist (sortOn SlackMessage.instant messages) ∧
        p.length ≤ cfg.maxGroupSize ∧
        ((∃ ts, ∀ m ∈ p, m.thread = some ts) ∨ (∀ m ∈ p, m.thread = none) ∧
          p.IsChain (fun prev m => m.instant-prev.instant ≤ minutes cfg.timeGapMinutes))) ∧
      ∀ i d, i+d < gs.length → ((gs.drop i).take (d+1)).IsChain InOrder → ∃ m n,
        (assignSessionIds cfg gs)[i]? = some m ∧ (assignSessionIds cfg gs)[i+d]? = some n ∧
        m ≤ n ∧ (m = n ↔ ∀ k, i ≤ k → k < i+d → ∀ g g', gs[k]? = some g →
          gs[k+1]? = some g' → separated cfg g g' = false) := by
  by_cases h : OneKind messages
  · obtain ⟨runs, hflat, hmap, hruns⟩ :=
      mergeUndersized_runs cfg.minGroupSize (splitOversized cfg (whole cfg messages))
    have hc := comparable_of_oneKind h
    have hnull : ∀ m ∈ messages, m.timestamp ≠ .null := by
      intro m hm hm'
      rcases h with h | h
      · obtain ⟨_, ht⟩ := h m hm
        rw [hm'] at ht
        cases ht
      · obtain ⟨_, _, ht⟩ := h m hm
        rw [hm'] at ht
        cases ht
    refine .inr ⟨h, _, _, parts_eq hc, ?_, (numbered_groups cfg messages _ rfl).2,
      ⟨runs, hflat, hmap, hruns⟩, fun p hp => mem_parts hp, fun i d hid _ => same_session_iff _ i d hid⟩
    rw [chunkMessages_eq cfg hc _ rfl]
    refine mapM_ok _ (fun c hcm => buildChunkResult_ok (fun m hm => hnull m ?_))
    exact (numbered_groups cfg messages _ rfl).2.mem_iff.mp
      (List.mem_flatten_of_mem (List.of_mem_zip hcm).1 hm)
  · exact .inl ⟨h, chunkMessages_raises cfg h⟩

namespace Apart

def config : ConversationChunkerConfig := ⟨15,30,50,2,by decide⟩

def message (id : String) (minute : ℤ) : SlackMessage := ⟨id,.aware (minutes minute) 0,none⟩

def messages : Group := [message "a" 0,message "b" 10,message "c" 20]

/-- Messages that follow one another closely stay together, however far the
first is from the last. -/
theorem distant_messages_grouped : ¬ ∀ (cfg : ConversationChunkerConfig) (messages : Group),
    ∀ chunks, chunkMessages cfg messages = .ok chunks → ∀ c ∈ chunks, ∀ m ∈ c.1, ∀ m' ∈ c.1,
      m'.instant-m.instant ≤ minutes cfg.timeGapMinutes := by
  intro h
  have hle := h config messages [(messages,0)] (by decide) (messages,0) (by simp)
    (message "a" 0) (by simp [messages]) (message "c" 20) (by simp [messages])
  exact absurd hle (by decide)

def evening : Group := [message "a" 0,message "b" 5,message "c" 60,message "d" 61]

theorem evening_sessions : ∃ m n, (assignSessionIds config [evening.take 2,evening.drop 2])[0]? = some m ∧
    (assignSessionIds config [evening.take 2,evening.drop 2])[1]? = some n ∧ m ≠ n := by
  obtain ⟨hkind, -⟩ | ⟨-, ps, gs, -, hchunks, -, -, -, hsessions⟩ := groups_spec config evening
  · exact absurd (.inr (by simp [evening, message])) hkind
  · have hgs : gs = [evening.take 2,evening.drop 2] := by
      have h := Except.ok.inj (hchunks.symm.trans
        (show chunkMessages config evening = .ok [(evening.take 2,0),(evening.drop 2,1)] by decide))
      rw [← List.map_fst_zip (le_of_eq (length_session_ids config gs).symm), h]
      rfl
    subst hgs
    obtain ⟨m, n, hm, hn, -, hiff⟩ := hsessions 0 1 (by decide) (by unfold InOrder; decide)
    refine ⟨m, n, hm, hn, fun heq => ?_⟩
    exact absurd (hiff.mp heq 0 le_rfl Nat.zero_lt_one _ _ rfl rfl) (by decide)

end Apart

end Uru.Chunking.Conversation
