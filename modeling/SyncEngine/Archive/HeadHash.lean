import SyncEngine.Archive.HeadLast

/-! # The hash of an archive whose head comes last

With any head, the subtrees kept are the complete ones of what was pushed, the head's first,
and the newest chunk is not among them. So merging the head in gives the hash of the whole.
-/

namespace SyncEngine.Archive

open Collections List Transfer

variable {Cv Hash : Type} {b : Blake3 Cv Hash} {data head last : List UInt8}
  {blocks before : List (List UInt8)} {hasher : HeadLastHasher Cv}

theorem chunkSize_eq (b : Blake3 Cv Hash) : chunkSize = 2 ^ 10 * b.tree.leafLen := by
  unfold chunkSize
  rfl

theorem finalizeNonRoot_eq (b : Blake3 Cv Hash) (hpos : 0 < data.length) (hle : data.length ≤ chunkSize)
    (k : Nat) : b.finalizeNonRoot (k * chunkSize) data = some (b.tree.subtree (k * chunkSize) data) := by
  have hsize : k * chunkSize = k * 1024 * chunkLen := by
    unfold chunkSize chunkLen
    rw [Nat.mul_assoc]
  have hlen : chunkSize = 1024 * chunkLen := by
    unfold chunkSize chunkLen
    rfl
  refine if_pos ⟨?_, ne_nil_of_length_pos hpos, fun max hmax => ?_⟩
  · rw [hsize]
    exact Nat.mul_mod_left _ _
  unfold maxSubtreeLen at hmax
  split at hmax
  · cases hmax
  rename_i hne
  cases hmax
  rw [hsize, Nat.mul_div_cancel _ (by decide)]
  rw [hlen] at hle
  refine Nat.le_trans hle (Nat.mul_le_mul_right _ (Nat.le_of_dvd ?_ ?_))
  · exact Nat.gcd_pos_of_pos_right _ (Nat.two_pow_pos _)
  · exact Nat.dvd_gcd (Nat.dvd_mul_left _ _) (by decide)

theorem mergeUp_pushUp (b : Blake3 Cv Hash) (headCv : Cv) (total : Nat) (cv : Cv) (stack headSiblings : List Cv) :
    b.tree.mergeUp total cv (stack ++ [headSiblings.foldl b.parent headCv]) =
      (HeadLastHasher.pushUp b total cv stack headSiblings).1 ++
        [(HeadLastHasher.pushUp b total cv stack headSiblings).2.foldl b.parent headCv] := by
  induction stack generalizing total cv with
  | nil =>
    unfold HeadLastHasher.pushUp
    rw [nil_append, TreeHash.mergeUp]
    split
    · rw [TreeHash.mergeUp, foldl_append]
      rfl
    · rfl
  | cons left stack ih =>
    unfold HeadLastHasher.pushUp
    rw [cons_append, TreeHash.mergeUp]
    split
    · exact ih _ _
    · rfl

theorem length_flatten_full {n : Nat} (h : ∀ block ∈ blocks, block.length = n) :
    blocks.flatten.length = blocks.length * n := by
  induction blocks with
  | nil => rw [flatten_nil, length_nil, length_nil, Nat.zero_mul]
  | cons block blocks ih =>
    rw [flatten_cons, length_append, h block mem_cons_self,
      ih fun other hmem => h other (mem_cons_of_mem _ hmem), length_cons, Nat.succ_mul,
      Nat.add_comm]

/-- A hasher that was given these chunks after the head. -/
inductive Hashing (b : Blake3 Cv Hash) : HeadLastHasher Cv → List (List UInt8) → Prop where
  | new : Hashing b .new []
  | more {hasher : HeadLastHasher Cv} {before : List (List UInt8)} {last : List UInt8}
      (hchunks : hasher.chunks = before.length + 1)
      (hpending : hasher.pending = some (b.tree.subtree ((before.length + 1) * chunkSize) last))
      (hspine : ∀ head : List UInt8, head.length = chunkSize →
        b.tree.Spine 10 (before.length + 1) (head ++ before.flatten)
          (hasher.stack ++ [hasher.headSiblings.foldl b.parent (b.tree.subtree 0 head)])) :
      Hashing b hasher (before ++ [last])

theorem Hashing.update (h : Hashing b hasher blocks) (hfull : ∀ block ∈ blocks, block.length = chunkSize)
    (hpos : 0 < data.length) (hle : data.length ≤ chunkSize) :
    ∃ after, hasher.update b data = some after ∧ Hashing b after (blocks ++ [data]) := by
  unfold HeadLastHasher.update
  cases h with
  | new =>
    dsimp only [HeadLastHasher.new]
    rw [finalizeNonRoot_eq b hpos hle]
    refine ⟨_, rfl, @Hashing.more _ _ b _ [] data rfl rfl fun head hhead => ?_⟩
    rw [flatten_nil, append_nil]
    exact TreeHash.Spine.odd .nil (hhead.trans (chunkSize_eq b))
  | @more _ before last hchunks hpending hspine =>
    have hlast : last.length = chunkSize := hfull last (mem_append_right _ (mem_singleton_self _))
    have hbefore : before.flatten.length = before.length * chunkSize :=
      length_flatten_full fun block hmem => hfull block (mem_append_left _ hmem)
    rw [hpending]
    unfold HeadLastHasher.push
    dsimp only
    rw [hchunks, finalizeNonRoot_eq b hpos hle]
    refine ⟨_, rfl, Hashing.more ?_ ?_ fun head hhead => ?_⟩
    · rw [length_append, length_singleton]
    · rw [length_append, length_singleton]
    have hlength : (head ++ before.flatten).length = (before.length + 1) * chunkSize := by
      rw [length_append, hhead, hbefore, Nat.succ_mul, Nat.add_comm]
    have hpush := (hspine head hhead).mergeUp (hlast.trans (chunkSize_eq b))
    rw [mergeUp_pushUp, hlength, append_assoc] at hpush
    rw [flatten_append, flatten_singleton, length_append, length_singleton]
    exact hpush

theorem Hashing.finalize (h : Hashing b hasher blocks) (hhead : blocks ≠ [] → head.length = chunkSize)
    (hfull : ∀ block ∈ blocks.dropLast, block.length = chunkSize)
    (hlast : ∀ block ∈ blocks.getLast?, 0 < block.length ∧ block.length ≤ chunkSize) :
    hasher.finalize b head = some (b.hash (head ++ blocks.flatten)) := by
  unfold HeadLastHasher.finalize
  cases h with
  | new =>
    rw [flatten_nil, append_nil]
    rfl
  | @more _ before last hchunks hpending hspine =>
    have hsize := hhead (append_ne_nil_of_right_ne_nil _ (cons_ne_nil _ _))
    rw [dropLast_concat] at hfull
    rw [getLast?_concat] at hlast
    obtain ⟨hpos, hle⟩ := hlast last rfl
    have hlength : (head ++ before.flatten).length = (before.length + 1) * chunkSize := by
      rw [length_append, hsize, length_flatten_full hfull, Nat.succ_mul, Nat.add_comm]
    have hwhole := (hspine head hsize).hash rfl hpos (Nat.le_trans hle (Nat.le_of_eq (chunkSize_eq b)))
    have hroot : b.finalizeNonRoot 0 head = some (b.tree.subtree 0 head) := by
      have hat := finalizeNonRoot_eq b (hsize ▸ chunkSize_pos) (Nat.le_of_eq hsize) 0
      rw [Nat.zero_mul] at hat
      exact hat
    rw [hpending, hroot, flatten_append, flatten_singleton, ← append_assoc]
    unfold Blake3.hash
    rw [hwhole, hlength]
    rfl

end SyncEngine.Archive
