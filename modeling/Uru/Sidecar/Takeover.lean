import Mathlib.Data.List.Infix
import Mathlib.Tactic

/-!
# Takeover of leftover processes

Before it spawns, a manager kills what an earlier one left behind: the process
its lockfile names, that process's group, and what a search for the database
path finds. The process table is what `ps`, `pgrep` and the signals see of it;
a process may be gone at any later look, and what it was launched for is not
something that the table shows.
-/

set_option autoImplicit false

namespace Uru.Sidecar.Takeover

inductive Os where
  | win32
  | posix
  deriving DecidableEq

structure SidecarLaunchSpec where
  pythonPath : List Char
  dbPath : List Char
  llamaServerPath : List Char
  chatModelPath : List Char
  embedModelPath : List Char
  embeddingDimension : ℕ
  namespaceId : Option (List Char)

def number (n : ℕ) : List Char := (toString n).toList

/-- The command line that `start` spawns the sidecar with. -/
def SidecarLaunchSpec.args (spec : SidecarLaunchSpec) (port : ℕ) : List (List Char) :=
  [spec.pythonPath,"-m".toList,"uru_sidecar".toList,"--port".toList,number port,
    "--db-path".toList,spec.dbPath,"--llama-server".toList,spec.llamaServerPath,
    "--chat-model".toList,spec.chatModelPath,"--embed-model".toList,spec.embedModelPath,
    "--embedding-dimension".toList,number spec.embeddingDimension,"--idle-timeout".toList,
    "120".toList] ++
  match spec.namespaceId with
  | none => []
  | some id => if id = [] then [] else ["--namespace-id".toList,id]

structure LlamaServer where
  serverBin : List Char
  modelPath : List Char
  host : List Char
  port : ℕ
  nCtx : ℕ
  nGpuLayers : ℕ
  modelAlias : List Char
  embedding : Bool

def LlamaServer.args (l : LlamaServer) : List (List Char) :=
  [l.serverBin,"--model".toList,l.modelPath,"--host".toList,l.host,"--port".toList,number l.port,
    "--ctx-size".toList,number l.nCtx,"--n-gpu-layers".toList,number l.nGpuLayers,
    "--alias".toList,l.modelAlias] ++
  if l.embedding then ["--embeddings".toList,"--pooling".toList,"cls".toList,
    "--ubatch-size".toList,number l.nCtx] else []

/-- What a process was started as: a sidecar, a llama server of the sidecar of
some database, or a program that has nothing to do with either. -/
inductive Launch where
  | sidecar (spec : SidecarLaunchSpec) (port : ℕ)
  | llamaServer (server : LlamaServer) (dbPath : List Char)
  | other (command : List Char)

def Launch.command : Launch → List Char
  | .sidecar spec port => [' '].intercalate (spec.args port)
  | .llamaServer server _ => [' '].intercalate server.args
  | .other command => command

/-- A row of the process table; `permitted` if this user may signal it. -/
structure Process where
  pid : ℕ
  ppid : ℕ
  pgid : ℕ
  permitted : Bool
  launch : Launch

def Process.command (p : Process) : List Char := p.launch.command

/-- A sidecar or llama server launched for the database. -/
def Process.Ours (db : List Char) (p : Process) : Prop :=
  match p.launch with
  | .sidecar spec _ => spec.dbPath = db
  | .llamaServer _ dbPath => dbPath = db
  | .other _ => False

instance (db : List Char) (p : Process) : Decidable (p.Ours db) :=
  match p with
  | ⟨_,_,_,_,.sidecar spec _⟩ => inferInstanceAs (Decidable (spec.dbPath = db))
  | ⟨_,_,_,_,.llamaServer _ dbPath⟩ => inferInstanceAs (Decidable (dbPath = db))
  | ⟨_,_,_,_,.other _⟩ => inferInstanceAs (Decidable False)

def OnlyOurs (db : List Char) (ps : List Process) : Prop := ∀ p ∈ ps, p.Ours db

instance (db : List Char) (ps : List Process) : Decidable (OnlyOurs db ps) :=
  inferInstanceAs (Decidable (∀ p ∈ ps, p.Ours db))

/-- The expression `/uru_sidecar|llama-server/`. -/
def namesOurs (command : List Char) : Bool :=
  "uru_sidecar".toList <:+: command ∨ "llama-server".toList <:+: command

def lineTerminators : List Char := ['\n','\r','\u2028','\u2029']

/-- A line of `ps ax` is read by a pattern whose dot stops at a line
terminator; what is left of it is tested as above. -/
def lineNamesOurs (command : List Char) : Bool :=
  namesOurs command && command.all (fun c => !lineTerminators.contains c)

/-- The metacharacters that `findOrphans` escapes. -/
def metacharacters : List Char := ".*+?^$\x7b\x7d()|[]\\".toList

def escapePattern : List Char → List Char
  | [] => []
  | c::cs => if metacharacters.contains c then '\\' :: c :: escapePattern cs
    else c :: escapePattern cs

/-- The text that an expression matches when it consists of plain and of
escaped characters only. -/
def literalText : List Char → Option (List Char)
  | [] => some []
  | '\\' :: c :: cs => (literalText cs).map (fun t => c::t)
  | c::cs => if metacharacters.contains c then none else (literalText cs).map (fun t => c::t)

/-- The processes with their departures left open. `optionMatch` says what
`pgrep` makes of a pattern that it takes for an option. -/
structure Table where
  os : Os
  self : Process
  procs : List Process
  nodup : (procs.map Process.pid).Nodup
  optionMatch : List Char → Process → Bool

/-- Which processes are still there at which look. -/
structure Departures where
  alive : ℕ → Process → Bool
  gone : ∀ k p, alive (k+1) p = true → alive k p = true

def seen (t : Table) (d : Departures) (k : ℕ) : List Process := t.procs.filter (d.alive k)

/-- `ps -p pid`, or the query for the command line on Windows, and the test. -/
def looksLikeOurs (ps : List Process) (pid : ℤ) : Bool :=
  match ps.find? (fun p => (p.pid : ℤ) = pid) with
  | some p => namesOurs p.command
  | none => false

/-- Those that `kill` with this argument signals. -/
def targets (self : Process) (ps : List Process) (n : ℤ) : List Process :=
  ps.filter fun p => p.permitted &&
    if 0 < n then decide ((p.pid : ℤ) = n)
    else if n = 0 then decide (p.pgid = self.pgid)
    else if n = -1 then decide (p.pid ≠ 1 ∧ p.pid ≠ self.pid)
    else decide ((p.pgid : ℤ) = -n)

def descendants (ps : List Process) : ℕ → List ℕ → List ℕ
  | 0, pids => pids
  | n+1, pids => descendants ps n (pids++(ps.filter (fun p => pids.contains p.ppid)).map Process.pid)

/-- `taskkill /pid pid /T /F`. -/
def taskkill (ps : List Process) (pid : ℤ) : List Process :=
  match ps.find? (fun p => (p.pid : ℤ) = pid) with
  | none => []
  | some p => ps.filter fun q => q.permitted && (descendants ps ps.length [p.pid]).contains q.pid

/-- A group that holds nobody is an error, and then the process alone is
signalled. -/
def killTree (os : Os) (self : Process) (ps : List Process) (pid : ℤ) : List Process :=
  match os with
  | .win32 => taskkill ps pid
  | .posix => if (targets self ps (-pid)).isEmpty then targets self ps pid
    else targets self ps (-pid)

/-- The process list is read at one look and the group killed at the next. -/
def killOrphanedGroup (t : Table) (d : Departures) (k : ℕ) (pgid : ℤ) : List Process :=
  match t.os with
  | .win32 => []
  | .posix =>
    if (seen t d k).any (fun p => decide ((p.pgid : ℤ) = pgid) && lineNamesOurs p.command)
    then targets t.self (seen t d (k+1)) (-pgid) else []

def pgrep (t : Table) (pattern : List Char) (p : Process) : Bool :=
  if pattern.head? = some '-' then t.optionMatch pattern p
  else match literalText pattern with
    | some text => text <:+: p.command
    | none => false

def findOrphans (t : Table) (d : Departures) (k : ℕ) (db : List Char) : List ℕ :=
  match t.os with
  | .win32 => []
  | .posix => ((seen t d k).filter (pgrep t (escapePattern db))).map Process.pid

/-- A pid is verified at one look and its tree killed at the next. -/
def killVerified (t : Table) (d : Departures) (k : ℕ) (pid : ℤ) : List Process :=
  if looksLikeOurs (seen t d k) pid then killTree t.os t.self (seen t d (k+1)) pid else []

def killOrphans (t : Table) (d : Departures) : ℕ → List ℕ → List Process
  | _, [] => []
  | k, pid::rest => killVerified t d k pid++killOrphans t d (k+2) rest

/-- The lockfile is missing, unreadable or without an integer pid (`none`), or
names a pid. -/
def killLocked (t : Table) (d : Departures) : Option ℤ → List Process
  | none => []
  | some pid =>
    if looksLikeOurs (seen t d 0) pid then killTree t.os t.self (seen t d 1) pid
    else killOrphanedGroup t d 1 pid

def takeOverExisting (t : Table) (d : Departures) (lock : Option ℤ) (db : List Char) :
    List Process :=
  killLocked t d lock++killOrphans t d 4 (findOrphans t d 3 db)

theorem literalText_escapePattern (db : List Char) : literalText (escapePattern db) = some db := by
  induction db with
  | nil => rfl
  | cons c cs ih =>
    rw [escapePattern]
    split
    · simp [literalText, ih]
    · rename_i hc
      have hne : c ≠ '\\' := fun h => hc (by subst h; decide)
      rw [literalText.eq_3 c _ (fun _ _ h _ => hne h)]
      simp only [hc, Bool.false_eq_true, if_false, ih, Option.map_some]

theorem seen_subset (t : Table) (d : Departures) (k : ℕ) : seen t d k ⊆ t.procs :=
  List.filter_subset_self _

theorem seen_nodup (t : Table) (d : Departures) (k : ℕ) :
    ((seen t d k).map Process.pid).Nodup :=
  (List.filter_sublist.map Process.pid).nodup t.nodup

theorem looksLikeOurs_iff (ps : List Process) (hps : (ps.map Process.pid).Nodup) (pid : ℤ) :
    looksLikeOurs ps pid = true ↔ ∃ p ∈ ps, (p.pid : ℤ) = pid ∧ namesOurs p.command = true := by
  unfold looksLikeOurs
  split
  · rename_i p hp
    have hmem := List.mem_of_find?_eq_some hp
    have hpid : (p.pid : ℤ) = pid := by simpa using List.find?_some hp
    refine ⟨fun h => ⟨p,hmem,hpid,h⟩,fun ⟨q,hq,hqpid,hnames⟩ => ?_⟩
    have : q = p := List.inj_on_of_nodup_map hps hq hmem (by omega)
    exact this ▸ hnames
  · rename_i hnone
    simp only [List.find?_eq_none, decide_eq_true_eq] at hnone
    simp only [Bool.false_eq_true, false_iff]
    exact fun ⟨q,hq,hpid,_⟩ => hnone q hq hpid

theorem targets_mono (self : Process) (ps qs : List Process) (h : ps ⊆ qs) (n : ℤ) :
    targets self ps n ⊆ targets self qs n :=
  List.filter_subset _ h

theorem descendants_mono (ps qs : List Process) (h : ps ⊆ qs) (n m : ℕ) (hn : n ≤ m)
    (pids pids' : List ℕ) (hp : pids ⊆ pids') :
    descendants ps n pids ⊆ descendants qs m pids' := by
  induction m generalizing n pids pids' with
  | zero =>
    rw [Nat.le_zero.mp hn]
    exact hp
  | succ m ih =>
    have hgrow : pids ⊆ pids'++(qs.filter (fun p => pids'.contains p.ppid)).map Process.pid :=
      List.Subset.trans hp (List.subset_append_left _ _)
    cases n with
    | zero => exact ih 0 (Nat.zero_le m) pids _ hgrow
    | succ n =>
      refine ih n (Nat.le_of_succ_le_succ hn) _ _ (List.append_subset.mpr ⟨hgrow,?_⟩)
      refine List.Subset.trans (List.map_subset _ (fun q hq => ?_)) (List.subset_append_right _ _)
      simp only [List.mem_filter, List.contains_eq_mem, decide_eq_true_eq] at hq ⊢
      exact ⟨h hq.1,hp hq.2⟩

theorem taskkill_mono (ps qs : List Process) (h : ps ⊆ qs) (hlen : ps.length ≤ qs.length)
    (pid : ℤ) : taskkill ps pid ⊆ taskkill qs pid := by
  unfold taskkill
  split
  · exact List.nil_subset _
  · rename_i p hp
    have hpid : (p.pid : ℤ) = pid := by simpa using List.find?_some hp
    split
    · rename_i hnone
      simp only [List.find?_eq_none, decide_eq_true_eq] at hnone
      exact absurd hpid (hnone p (h (List.mem_of_find?_eq_some hp)))
    · rename_i q hq
      have hqpid : (q.pid : ℤ) = pid := by simpa using List.find?_some hq
      have hpq : p.pid = q.pid := by omega
      intro r hr
      simp only [List.mem_filter, Bool.and_eq_true, List.contains_eq_mem, decide_eq_true_eq] at hr ⊢
      refine ⟨h hr.1,hr.2.1,?_⟩
      exact descendants_mono ps qs h _ _ hlen _ _ (by rw [hpq]; exact List.Subset.refl _) hr.2.2

/-- Everyone the kill of a verified pid can hit: its tree on Windows, else its
process group and the process itself. -/
def reach (os : Os) (self : Process) (ps : List Process) (pid : ℤ) : List Process :=
  match os with
  | .win32 => taskkill ps pid
  | .posix => targets self ps (-pid)++targets self ps pid

theorem killTree_subset (os : Os) (self : Process) (ps qs : List Process) (h : ps ⊆ qs)
    (hlen : ps.length ≤ qs.length) (pid : ℤ) : killTree os self ps pid ⊆ reach os self qs pid := by
  cases os with
  | win32 => exact taskkill_mono ps qs h hlen pid
  | posix =>
    simp only [killTree, reach]
    split
    · exact List.subset_append_of_subset_right _ (targets_mono self ps qs h pid)
    · exact List.subset_append_of_subset_left _ (targets_mono self ps qs h (-pid))

theorem onlyOurs_subset (db : List Char) (ps qs : List Process) (h : ps ⊆ qs)
    (hq : OnlyOurs db qs) : OnlyOurs db ps :=
  fun p hp => hq p (h hp)

theorem onlyOurs_append (db : List Char) (ps qs : List Process) :
    OnlyOurs db (ps++qs) ↔ OnlyOurs db ps ∧ OnlyOurs db qs := by
  simp only [OnlyOurs, List.mem_append, or_imp, forall_and]

theorem mem_intercalate (w : List Char) (ws : List (List Char)) (h : w ∈ ws) :
    w <:+: [' '].intercalate ws := by
  induction ws with
  | nil => simp at h
  | cons v ws ih =>
    cases ws with
    | nil =>
      rw [List.mem_singleton] at h
      simp [h, List.intercalate]
    | cons u ws =>
      rw [show [' '].intercalate (v::u::ws) = v ++ ' ' :: [' '].intercalate (u::ws) by
        simp [List.intercalate]]
      rcases List.mem_cons.mp h with rfl | h
      · exact List.IsPrefix.isInfix (List.prefix_append _ _)
      · exact (ih h).trans ⟨v++[' '],[],by simp⟩

theorem sidecar_command (spec : SidecarLaunchSpec) (port : ℕ) :
    namesOurs (Launch.sidecar spec port).command = true ∧
      spec.dbPath <:+: (Launch.sidecar spec port).command := by
  constructor
  · have hword : "uru_sidecar".toList ∈ spec.args port :=
      List.mem_append_left _ (List.mem_cons_of_mem _ (List.mem_cons_of_mem _ List.mem_cons_self))
    exact decide_eq_true (Or.inl (mem_intercalate _ _ hword))
  · refine mem_intercalate spec.dbPath _ (List.mem_append_left _ ?_)
    exact List.mem_of_getElem? (i := 6) rfl

theorem escapePattern_head (db : List Char) (h : db.head? ≠ some '-') :
    (escapePattern db).head? ≠ some '-' := by
  cases db with
  | nil => simp [escapePattern]
  | cons c cs =>
    rw [escapePattern]
    split
    · simp
    · simpa using h

theorem killVerified_subset_killOrphans (t : Table) (d : Departures) (pids : List ℕ) (pid : ℕ)
    (h : pid ∈ pids) (k : ℕ) : ∃ j, killVerified t d j pid ⊆ killOrphans t d k pids := by
  induction pids generalizing k with
  | nil => simp at h
  | cons p rest ih =>
    rcases List.mem_cons.mp h with rfl | h
    · exact ⟨k,List.subset_append_left _ _⟩
    · obtain ⟨j, hj⟩ := ih h (k+2)
      exact ⟨j,List.Subset.trans hj (List.subset_append_right _ _)⟩

/-- A sidecar of the database that leads its group and stays in the table is
hit, whatever the lockfile says. -/
theorem leftover_hit (t : Table) (d : Departures) (lock : Option ℤ) (hos : t.os = .posix)
    (p : Process) (spec : SidecarLaunchSpec) (port : ℕ) (hp : p ∈ t.procs)
    (hlaunch : p.launch = .sidecar spec port) (hpermitted : p.permitted = true)
    (hleader : p.pgid = p.pid) (hpid : 1 < p.pid) (hdash : spec.dbPath.head? ≠ some '-')
    (hstay : ∀ k, d.alive k p = true) : p ∈ takeOverExisting t d lock spec.dbPath := by
  obtain ⟨hnames, hmention⟩ := sidecar_command spec port
  rw [← hlaunch] at hnames hmention
  have hseen : ∀ k, p ∈ seen t d k := fun k => List.mem_filter.mpr ⟨hp,hstay k⟩
  have hfound : p.pid ∈ findOrphans t d 3 spec.dbPath := by
    simp only [findOrphans, hos]
    refine List.mem_map_of_mem (List.mem_filter.mpr ⟨hseen 3,?_⟩)
    rw [pgrep, if_neg (escapePattern_head _ hdash), literalText_escapePattern]
    exact decide_eq_true hmention
  obtain ⟨j, hj⟩ := killVerified_subset_killOrphans t d _ p.pid hfound 4
  refine List.mem_append.mpr (Or.inr (hj ?_))
  have hlooks := (looksLikeOurs_iff _ (seen_nodup t d j) p.pid).mpr ⟨p,hseen j,rfl,hnames⟩
  have htarget : p ∈ targets t.self (seen t d (j+1)) (-(p.pid : ℤ)) := by
    refine List.mem_filter.mpr ⟨hseen (j+1),?_⟩
    rw [if_neg (by omega), if_neg (by omega), if_neg (by omega)]
    simp [hpermitted, hleader]
  have hne := List.ne_nil_of_mem htarget
  simpa [killVerified, hlooks, killTree, hos, hne] using htarget

/-- If the pid belongs to a process that the test takes for ours, everyone its
kill can hit was launched for the database. -/
def VerifiedSole (t : Table) (db : List Char) (pid : ℤ) : Prop :=
  (∃ p ∈ t.procs, (p.pid : ℤ) = pid ∧ namesOurs p.command = true) →
    OnlyOurs db (reach t.os t.self t.procs pid)

/-- If the group has a member that the test takes for ours, the whole group
was launched for the database. -/
def GroupSole (t : Table) (db : List Char) (pgid : ℤ) : Prop :=
  t.os = .posix → (∃ p ∈ t.procs, (p.pgid : ℤ) = pgid ∧ lineNamesOurs p.command = true) →
    OnlyOurs db (targets t.self t.procs (-pgid))

structure Exclusive (t : Table) (lock : Option ℤ) (db : List Char) : Prop where
  locked : ∀ pid, lock = some pid → VerifiedSole t db pid ∧ GroupSole t db pid
  mentioned : t.os = .posix → ∀ p ∈ t.procs, pgrep t (escapePattern db) p = true →
    VerifiedSole t db p.pid

theorem killVerified_only (t : Table) (d : Departures) (db : List Char) (k : ℕ) (pid : ℤ)
    (h : VerifiedSole t db pid) : OnlyOurs db (killVerified t d k pid) := by
  unfold killVerified
  split
  · rename_i hlooks
    obtain ⟨p, hp, hpid, hnames⟩ := (looksLikeOurs_iff _ (seen_nodup t d k) pid).mp hlooks
    have hreach := h ⟨p,seen_subset t d k hp,hpid,hnames⟩
    exact onlyOurs_subset db _ _ (killTree_subset t.os t.self _ t.procs (seen_subset t d (k+1))
      (List.length_filter_le _ _) pid) hreach
  · simp [OnlyOurs]

theorem killOrphanedGroup_only (t : Table) (d : Departures) (db : List Char) (k : ℕ) (pgid : ℤ)
    (h : GroupSole t db pgid) : OnlyOurs db (killOrphanedGroup t d k pgid) := by
  unfold killOrphanedGroup
  split
  · simp [OnlyOurs]
  · rename_i hos
    split
    · rename_i hany
      simp only [List.any_eq_true, Bool.and_eq_true, decide_eq_true_eq] at hany
      obtain ⟨p, hp, hpgid, hnames⟩ := hany
      have hgroup := h hos ⟨p,seen_subset t d k hp,hpgid,hnames⟩
      exact onlyOurs_subset db _ _ (targets_mono t.self _ _ (seen_subset t d (k+1)) (-pgid)) hgroup
    · simp [OnlyOurs]

theorem killOrphans_only (t : Table) (d : Departures) (db : List Char) (k : ℕ) (pids : List ℕ)
    (h : ∀ pid ∈ pids, VerifiedSole t db pid) : OnlyOurs db (killOrphans t d k pids) := by
  induction pids generalizing k with
  | nil => simp [killOrphans, OnlyOurs]
  | cons pid rest ih =>
    rw [killOrphans, onlyOurs_append]
    exact ⟨killVerified_only t d db k pid (h pid List.mem_cons_self),
      ih (k+2) (fun q hq => h q (List.mem_cons_of_mem pid hq))⟩

theorem takeOverExisting_only (t : Table) (d : Departures) (lock : Option ℤ) (db : List Char)
    (h : Exclusive t lock db) : OnlyOurs db (takeOverExisting t d lock db) := by
  rw [takeOverExisting, onlyOurs_append]
  constructor
  · cases lock with
    | none => simp [killLocked, OnlyOurs]
    | some pid =>
      obtain ⟨hverified, hgroup⟩ := h.locked pid rfl
      have hkill := killVerified_only t d db 0 pid hverified
      rw [killVerified] at hkill
      rw [killLocked]
      split
      · rename_i hlooks
        rwa [if_pos hlooks] at hkill
      · exact killOrphanedGroup_only t d db 1 pid hgroup
  · refine killOrphans_only t d db 4 _ (fun pid hpid => ?_)
    unfold findOrphans at hpid
    split at hpid
    · simp at hpid
    · rename_i hos
      obtain ⟨p, hp, rfl⟩ := List.mem_map.mp hpid
      rw [List.mem_filter] at hp
      exact h.mentioned hos p (seen_subset t d 3 hp.1) hp.2

def stay : Departures := ⟨fun _ _ => true,fun _ _ h => h⟩

def alone (p : Process) : Departures := ⟨fun _ q => q.pid = p.pid,fun _ _ h => h⟩

theorem seen_stay (t : Table) (k : ℕ) : seen t stay k = t.procs :=
  List.filter_eq_self.mpr (fun _ _ => rfl)

theorem mem_seen_alone (t : Table) (p : Process) (hp : p ∈ t.procs) (k : ℕ) (q : Process) :
    q ∈ seen t (alone p) k ↔ q = p := by
  simp only [seen, alone, List.mem_filter, decide_eq_true_eq]
  refine ⟨fun h => List.inj_on_of_nodup_map t.nodup h.1 hp h.2,?_⟩
  rintro rfl
  exact ⟨hp,rfl⟩

theorem killTree_stay (t : Table) (pid : ℤ) (q : Process)
    (hq : match t.os with
      | .win32 => q ∈ taskkill t.procs pid
      | .posix => q ∈ targets t.self t.procs (-pid)) : q ∈ killTree t.os t.self t.procs pid := by
  unfold killTree
  split
  · rename_i hos
    rwa [hos] at hq
  · rename_i hos
    rw [hos] at hq
    rw [if_neg]
    · exact hq
    · rw [List.isEmpty_iff]
      exact List.ne_nil_of_mem hq

/-- Whoever the kill of a verified pid can hit, it does hit after some
departures that leave the verified process in place. -/
theorem killVerified_hits (t : Table) (p q : Process) (hp : p ∈ t.procs)
    (hnames : namesOurs p.command = true) (hq : q ∈ reach t.os t.self t.procs p.pid) :
    ∃ d : Departures, (∀ k, p ∈ seen t d k) ∧ ∀ k, q ∈ killVerified t d k p.pid := by
  have hlooks : ∀ d : Departures, (∀ k, p ∈ seen t d k) → ∀ k,
      looksLikeOurs (seen t d k) p.pid = true := fun d hd k =>
    (looksLikeOurs_iff _ (seen_nodup t d k) _).mpr ⟨p,hd k,rfl,hnames⟩
  have hstay : ∀ k, p ∈ seen t stay k := fun k => by rwa [seen_stay]
  have halone : ∀ k, p ∈ seen t (alone p) k := fun k => (mem_seen_alone t p hp k p).mpr rfl
  have hkillStay : q ∈ killTree t.os t.self t.procs p.pid →
      ∃ d : Departures, (∀ k, p ∈ seen t d k) ∧ ∀ k, q ∈ killVerified t d k p.pid := by
    refine fun h => ⟨stay,hstay,fun k => ?_⟩
    rw [killVerified, if_pos (hlooks stay hstay k), seen_stay]
    exact h
  unfold reach at hq
  split at hq
  · rename_i hos
    exact hkillStay (killTree_stay t p.pid q (by rw [hos]; exact hq))
  · rename_i hos
    rcases List.mem_append.mp hq with hq | hq
    · exact hkillStay (killTree_stay t p.pid q (by rw [hos]; exact hq))
    · by_cases hzero : p.pid = 0
      · refine hkillStay (killTree_stay t p.pid q (by rw [hos]; simpa [hzero] using hq))
      · have hmem := List.mem_filter.mp hq
        rw [if_pos (by omega)] at hmem
        simp only [Bool.and_eq_true, decide_eq_true_eq, Nat.cast_inj] at hmem
        have hqp : q = p := List.inj_on_of_nodup_map t.nodup hmem.1 hp hmem.2.2
        subst hqp
        refine ⟨alone q,halone,fun k => ?_⟩
        rw [killVerified, if_pos (hlooks _ halone k), hos, killTree]
        split
        · rw [targets, List.mem_filter, if_pos (by omega)]
          exact ⟨halone (k+1),by simp [hmem.2.1]⟩
        · rename_i hne
          rw [List.isEmpty_iff] at hne
          obtain ⟨r, hr⟩ := List.exists_mem_of_ne_nil _ hne
          have hrq := (mem_seen_alone t q hp (k+1) r).mp (List.mem_filter.mp hr).1
          exact hrq ▸ hr

theorem verifiedSole_of_hits (t : Table) (db : List Char) (pid : ℤ)
    (h : ∀ p ∈ t.procs, (p.pid : ℤ) = pid → namesOurs p.command = true →
      ∀ d : Departures, (∀ k, p ∈ seen t d k) → ∃ k, OnlyOurs db (killVerified t d k pid)) :
    VerifiedSole t db pid := by
  rintro ⟨p, hp, rfl, hnames⟩ q hq
  obtain ⟨d, hd, hkill⟩ := killVerified_hits t p q hp hnames hq
  obtain ⟨k, hk⟩ := h p hp rfl hnames d hd
  exact hk q (hkill k)

theorem groupSole_of_hits (t : Table) (db : List Char) (pgid : ℤ) (k : ℕ)
    (h : OnlyOurs db (killOrphanedGroup t stay k pgid)) : GroupSole t db pgid := by
  rintro hos ⟨p, hp, hpgid, hnames⟩
  have hany : t.procs.any (fun p => decide ((p.pgid : ℤ) = pgid) && lineNamesOurs p.command)
      = true := List.any_eq_true.mpr ⟨p,hp,by simp [hpgid, hnames]⟩
  simpa [killOrphanedGroup, hos, seen_stay, hany] using h

theorem exclusive_of_only (t : Table) (lock : Option ℤ) (db : List Char)
    (h : ∀ d : Departures, OnlyOurs db (takeOverExisting t d lock db)) : Exclusive t lock db := by
  have hparts := fun d => (onlyOurs_append db _ _).mp (h d)
  have hlocked : ∀ pid, lock = some pid → VerifiedSole t db pid := by
    rintro pid rfl
    refine verifiedSole_of_hits t db pid (fun p _ hpid hnames d hd => ⟨0,?_⟩)
    have hlooks : looksLikeOurs (seen t d 0) pid = true :=
      (looksLikeOurs_iff _ (seen_nodup t d 0) _).mpr ⟨p,hd 0,hpid,hnames⟩
    have := (hparts d).1
    rw [killLocked, if_pos hlooks] at this
    rwa [killVerified, if_pos hlooks]
  refine ⟨fun pid hpid => ⟨hlocked pid hpid,?_⟩,fun hos p hp hmention => ?_⟩
  · subst hpid
    have := (hparts stay).1
    rw [killLocked, seen_stay] at this
    split at this
    · rename_i hlooks
      obtain ⟨p, hp, hpid, hnames⟩ := (looksLikeOurs_iff _ t.nodup pid).mp hlooks
      intro hos _
      have hreach := hlocked pid rfl ⟨p,hp,hpid,hnames⟩
      rw [hos] at hreach
      exact ((onlyOurs_append db _ _).mp hreach).1
    · exact groupSole_of_hits t db pid 1 this
  · refine verifiedSole_of_hits t db p.pid (fun q hq hqpid hnames d hd => ?_)
    have hqp : q = p := List.inj_on_of_nodup_map t.nodup hq hp (by omega)
    subst hqp
    have hfound : q.pid ∈ findOrphans t d 3 db := by
      simp only [findOrphans, hos]
      exact List.mem_map_of_mem (List.mem_filter.mpr ⟨hd 3,hmention⟩)
    obtain ⟨j, hj⟩ := killVerified_subset_killOrphans t d _ q.pid hfound 4
    exact ⟨j,onlyOurs_subset db _ _ hj (hparts d).2⟩

/-- A takeover, and the sweep of a dead leader's group, hit leftovers of the
database only, whatever else departs meanwhile, exactly when the processes
that the tests point at, with all that their kills reach, are such leftovers. -/
theorem takeover_only_ours_iff (t : Table) (lock : Option ℤ) (pgid : ℤ) (db : List Char) :
    (∀ d : Departures, OnlyOurs db (takeOverExisting t d lock db) ∧
      ∀ k, OnlyOurs db (killOrphanedGroup t d k pgid)) ↔
    Exclusive t lock db ∧ GroupSole t db pgid := by
  constructor
  · intro h
    exact ⟨exclusive_of_only t lock db (fun d => (h d).1),
      groupSole_of_hits t db pgid 0 ((h stay).2 0)⟩
  · rintro ⟨hex, hgroup⟩ d
    exact ⟨takeOverExisting_only t d lock db hex,
      fun k => killOrphanedGroup_only t d db k pgid hgroup⟩

/-- The lock names a pid that now is the sidecar of another vault; a pager
shows a log of ours whose path lies under that of the database; and the group
of our dead sidecar holds a program that has nothing to do with it. -/
def mixedTable : Table where
  os := .posix
  self := ⟨400,1,400,true,.other "obsidian".toList⟩
  procs := [⟨400,1,400,true,.other "obsidian".toList⟩,
    ⟨500,400,500,true,.sidecar ⟨"python".toList,"/b/khora.db".toList,[],[],[],1024,none⟩ 7000⟩,
    ⟨600,1,600,true,.other "less /a/khora.db/uru_sidecar.log".toList⟩,
    ⟨701,1,700,true,.other "llama-server".toList⟩,⟨702,1,700,true,.other "backup".toList⟩]
  nodup := by decide
  optionMatch := fun _ _ => false

theorem takeover_hits_others :
    ¬ OnlyOurs "/a/khora.db".toList
      (takeOverExisting mixedTable stay (some 500) "/a/khora.db".toList) ∧
    ¬ OnlyOurs "/a/khora.db".toList
      (takeOverExisting mixedTable stay none "/a/khora.db".toList) ∧
    ¬ OnlyOurs "/a/khora.db".toList (killOrphanedGroup mixedTable stay 0 700) := by
  decide +kernel

end Uru.Sidecar.Takeover
