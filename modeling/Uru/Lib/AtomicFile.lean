import Uru.Lib.Framed

/-!
# Replacing a file through a temporary one

The file system is the content of a file and of its temporary sibling. Opening
the temporary file truncates it, a write is durable only after an `fsync`, and
a crash keeps an arbitrary prefix of a write that was not. Renaming and
unlinking are atomic.
-/

set_option autoImplicit false

namespace Uru.Lib.AtomicFile

structure Disk where
  file : Option Text
  tmp : Option Text
  synced : Bool
  deriving DecidableEq, Repr

inductive FsCall where
  | openTrunc
  | write (t : Text)
  | fsync
  | close
  | rename
  | unlink
  deriving DecidableEq, Repr

def FsCall.apply : FsCall → Disk → Disk
  | .openTrunc, d => { d with tmp := some [], synced := false }
  | .write t, d => { d with tmp := some t, synced := false }
  | .fsync, d => { d with synced := true }
  | .close, d => d
  | .rename, d => { file := d.tmp, tmp := none, synced := true }
  | .unlink, d => { d with tmp := none, synced := true }

def applyAll (cs : List FsCall) (d : Disk) : Disk := cs.foldl (fun d c => c.apply d) d

/-- The crash keeps the first `kept` characters of an unsynced write. -/
def crash (kept : ℕ) (d : Disk) : Disk :=
  if d.synced then d else { d with tmp := d.tmp.map (fun t => t.take kept), synced := true }

def replaceCalls (t : Text) : List FsCall := [.openTrunc, .write t, .fsync, .close, .rename]

/-- A replacement that a crash cuts after `k` of its calls. -/
def cutReplace (t : Text) (k kept : ℕ) (d : Disk) : Disk :=
  crash kept (applyAll ((replaceCalls t).take k) d)

theorem replace_done (t : Text) (d : Disk) :
    applyAll (replaceCalls t) d = ⟨some t,none,true⟩ := rfl

theorem cut_none (t : Text) (kept : ℕ) (d : Disk) : cutReplace t 0 kept d = crash kept d := rfl

theorem cut_opened (t : Text) (kept : ℕ) (d : Disk) :
    cutReplace t 1 kept d = ⟨d.file,some [],true⟩ := by
  simp [cutReplace, replaceCalls, applyAll, FsCall.apply, crash]

theorem cut_written (t : Text) (kept : ℕ) (d : Disk) :
    cutReplace t 2 kept d = ⟨d.file,some (t.take kept),true⟩ := by
  simp [cutReplace, replaceCalls, applyAll, FsCall.apply, crash]

theorem cut_synced (t : Text) (k kept : ℕ) (d : Disk) (hk : k = 3 ∨ k = 4) :
    cutReplace t k kept d = ⟨d.file,some t,true⟩ := by
  rcases hk with rfl | rfl <;> simp [cutReplace, replaceCalls, applyAll, FsCall.apply, crash]

theorem cut_renamed (t : Text) (k kept : ℕ) (d : Disk) (hk : 5 ≤ k) :
    cutReplace t k kept d = ⟨some t,none,true⟩ := by
  rw [cutReplace, List.take_of_length_le (by simpa [replaceCalls] using hk), replace_done]
  rfl

/-- Short of the rename the old file is untouched. -/
theorem cut_file (t : Text) (k kept : ℕ) (d : Disk) :
    (cutReplace t k kept d).file = d.file ∨ (cutReplace t k kept d).file = some t := by
  rcases Nat.lt_or_ge k 5 with hk | hk
  · left
    interval_cases k
    · rw [cut_none, crash]
      split <;> rfl
    · rw [cut_opened]
    · rw [cut_written]
    · rw [cut_synced _ _ _ _ (Or.inl rfl)]
    · rw [cut_synced _ _ _ _ (Or.inr rfl)]
  · right
    rw [cut_renamed t k kept d hk]

variable {α : Type}

def read (c : Codec α) (f : Option Text) : Option α := f.bind c.parse

def recover (c : Codec α) (d : Disk) : Option α := (read c d.file).or (read c d.tmp)

@[simp] theorem read_none (c : Codec α) : read c none = none := rfl

@[simp] theorem read_stringify (c : Codec α) (a : α) : read c (some (c.stringify a)) = some a :=
  c.parse_stringify a

@[simp] theorem read_truncated (c : Codec α) : read c (some []) = none := c.parse_nil

theorem read_torn (c : Codec α) (a : α) (n : ℕ) :
    read c (some ((c.stringify a).take n)) =
      if n < (c.stringify a).length then none else some a := by
  split_ifs with h
  · exact c.parse_torn a n h
  · rw [List.take_of_length_le (Nat.le_of_not_lt h)]
    exact c.parse_stringify a

/-- A replacement that was cut leaves either what the file held or the whole
new value to be recovered. -/
theorem recover_cut (c : Codec α) (a : α) (k kept : ℕ) (d : Disk) (ht : read c d.tmp = none)
    (hs : d.synced = true) :
    recover c (cutReplace (c.stringify a) k kept d) = read c d.file ∨
      recover c (cutReplace (c.stringify a) k kept d) = some a := by
  rcases cut_file (c.stringify a) k kept d with hf | hf
  · have htmp : read c (cutReplace (c.stringify a) k kept d).tmp = none ∨
        read c (cutReplace (c.stringify a) k kept d).tmp = some a := by
      rcases Nat.lt_or_ge k 5 with hk | hk
      · interval_cases k
        · rw [cut_none, crash, if_pos hs]
          exact Or.inl ht
        · rw [cut_opened]
          exact Or.inl (read_truncated c)
        · rw [cut_written, read_torn]
          split_ifs
          · exact Or.inl rfl
          · exact Or.inr rfl
        · rw [cut_synced _ _ _ _ (Or.inl rfl)]
          exact Or.inr (read_stringify c a)
        · rw [cut_synced _ _ _ _ (Or.inr rfl)]
          exact Or.inr (read_stringify c a)
      · rw [cut_renamed _ _ _ _ hk]
        exact Or.inl rfl
    rw [recover, hf]
    cases hr : read c d.file with
    | some m => exact Or.inl rfl
    | none => simpa using htmp
  · exact Or.inr (by rw [recover, hf, read_stringify]; rfl)

end Uru.Lib.AtomicFile
