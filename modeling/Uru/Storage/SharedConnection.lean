import Uru.Lib.SharedTransaction
import Uru.Storage.Rows

/-!
# The one connection of the embedded adapters

Graph, vector, temporal and event adapters run their statements on one
connection. Each operation is the list of its awaits between which others may
run; a batch is written window by window. The gate that lets two entity
batches with a common key run one after the other is left open here: what
holds of every interleaving holds of those it allows.
-/

set_option autoImplicit false

namespace Uru.Storage.SharedConnection

open Uru.Lib Uru.Lib.SharedTransaction

/-- One row as a statement writes it, or one statement that writes a set. -/
inductive Write where
  | insertChunk (id : UUID)
  | deleteChunk (id : UUID)
  | deleteChunksOf (document : UUID)
  | insertTemporalChunk (id : UUID)
  | deleteTemporalChunk (id : UUID)
  | deleteTemporalChunksOf (document : UUID)
  | insertEntity (id : UUID)
  | updateEntity (id : UUID)
  | deleteEdgesOf (entity : UUID)
  | deleteEntity (id : UUID)
  | upsertRelationship (id : UUID)
  | deleteRelationship (id : UUID)
  | insertEvent (id : UUID)
  deriving DecidableEq, Repr

/-- For the entity batch: what its first read has sorted into rows to insert
and rows to update. -/
inductive Operation where
  | createChunksBatch (ids : List UUID)
  | deleteChunksByDocument (document : UUID)
  | createTemporalChunksBatch (ids : List UUID)
  | deleteTemporalChunk (id : UUID)
  | deleteTemporalChunksByDocument (document : UUID)
  | createEntity (id : UUID)
  | updateEntity (id : UUID)
  | deleteEntity (id : UUID)
  | upsertEntitiesBatch (inserts updates : List UUID) (batchSize : ℕ)
  | createRelationship (id : UUID)
  | deleteRelationship (id : UUID)
  | createRelationshipsBatch (ids : List UUID) (batchSize : ℕ)
  | appendEventsBatch (ids : List UUID)
  deriving DecidableEq, Repr

/-- `range(0, len(rows), batch_size)`, one `executemany` a window. -/
def windows (f : UUID → Write) (batchSize : ℕ) (ids : List UUID) : List (Statement Write) :=
  (ids.toChunks batchSize).map (fun w => .write (w.map f))

def program : Operation → List (Statement Write)
  | .createChunksBatch ids =>
    if ids = [] then [] else [.write (ids.map .insertChunk), .commit]
  | .deleteChunksByDocument d => [.read, .write [.deleteChunksOf d], .commit]
  | .createTemporalChunksBatch ids =>
    if ids = [] then [] else [.write (ids.map .insertTemporalChunk), .commit]
  | .deleteTemporalChunk id => [.write [.deleteTemporalChunk id], .commit]
  | .deleteTemporalChunksByDocument d => [.write [.deleteTemporalChunksOf d], .commit]
  | .createEntity id => [.write [.insertEntity id], .commit]
  | .updateEntity id => [.write [.updateEntity id], .commit]
  | .deleteEntity id => [.write [.deleteEdgesOf id], .write [.deleteEntity id], .commit]
  | .upsertEntitiesBatch inserts updates n =>
    [.read]++windows .insertEntity n inserts++windows .updateEntity n updates++
      (if inserts = [] ∧ updates = [] then [] else [.commit])
  | .createRelationship id => [.write [.upsertRelationship id], .commit]
  | .deleteRelationship id => [.write [.deleteRelationship id], .commit]
  | .createRelationshipsBatch ids n =>
    if ids = [] then [] else
      (ids.toChunks n).flatMap (fun w => [.read, .write (w.map .upsertRelationship)])++[.commit]
  | .appendEventsBatch ids =>
    if ids = [] then [] else [.write (ids.map .insertEvent), .commit]

theorem commit_not_mem_windows (f : UUID → Write) (n : ℕ) (ids : List UUID) :
    Statement.commit ∉ windows f n ids := by
  intro h
  obtain ⟨w, -, hw⟩ := List.mem_map.mp h
  exact nomatch hw

theorem program_commitsLast (o : Operation) : CommitsLast (program o) := by
  cases o with
  | upsertEntitiesBatch inserts updates n =>
    rw [program]
    refine commitsLast_append ?_ ?_
    · simp [commit_not_mem_windows]
    · split
      · trivial
      · exact ⟨rfl, trivial⟩
  | createRelationshipsBatch ids n =>
    rw [program]
    split
    · trivial
    · refine commitsLast_append ?_ ⟨rfl, trivial⟩
      intro h
      obtain ⟨w, -, hw⟩ := List.mem_flatMap.mp h
      simp at hw
  | createChunksBatch ids => rw [program]; split <;> simp [CommitsLast, rows]
  | createTemporalChunksBatch ids => rw [program]; split <;> simp [CommitsLast, rows]
  | appendEventsBatch ids => rw [program]; split <;> simp [CommitsLast, rows]
  | deleteChunksByDocument d => simp [program, CommitsLast, rows]
  | deleteTemporalChunk id => simp [program, CommitsLast, rows]
  | deleteTemporalChunksByDocument d => simp [program, CommitsLast, rows]
  | createEntity id => simp [program, CommitsLast, rows]
  | updateEntity id => simp [program, CommitsLast, rows]
  | deleteEntity id => simp [program, CommitsLast, rows]
  | createRelationship id => simp [program, CommitsLast, rows]
  | deleteRelationship id => simp [program, CommitsLast, rows]

/-- In every state of a run each operation has all of its writes durable or
none, if and only if no commit of the run is executed while an operation is
between its first write and its last or has raised there. -/
theorem operations_atomic_iff (ops : ℕ → Operation) (es : List (Event ℕ)) :
    Machine.Always step (Atomic (fun i => program (ops i))) (start (fun i => program (ops i))) es ↔
      Machine.Meets step Clear (start (fun i => program (ops i))) es :=
  always_atomic_iff (fun i => program_commitsLast (ops i)) es

/-- Between the insert and the update of a batch of entities a batch of chunks is
created: its commit makes the inserted entity durable, without the updated one. -/
theorem half_batch_durable :
    ¬ Machine.Always step
      (Atomic (fun i => program
        (if i = 0 then .upsertEntitiesBatch [1] [2] 500 else .createChunksBatch [8])))
      (start (fun i => program
        (if i = 0 then .upsertEntitiesBatch [1] [2] 500 else .createChunksBatch [8])))
      [.next 0, .next 0, .next 1, .next 1] := by
  intro h
  have h := h.2 _ rfl
  have h := h.2 _ rfl
  have h := h.2 _ rfl
  have h : Atomic _ _ := h.2 _ rfl
  exact absurd (h 0) (by decide)

end Uru.Storage.SharedConnection
