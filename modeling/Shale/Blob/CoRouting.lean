import Shale.Blob.Unstage
import Shale.Membership.HashRing
import Shale.Reshard.Replicated
import Shale.Reshard.SingleNode

/-!
# Blob pointers and the keys they are bound with

The key of a blob pointer carries the shard key of its route key as a hash tag, so that the
pointer stays with the metadata of the blob through every reshard.
-/

namespace Shale.Blob

open Shale.Membership (shardKey shardKey_of_tagged)

/-- The two keys are routed alike, and a reshard copies both to the same unit: the child that a
bisect picks, with one replica or more, or the survivor of their unit in a merge. -/
structure CoRouted (sharding : Sharding) (key other : Bytes) : Prop where
  resolves : ∀ gs, sharding.genUnitForKey gs key = sharding.genUnitForKey gs other
  bisects : ∀ old next k, SingleNode.copyTarget sharding.hash old next k key =
    SingleNode.copyTarget sharding.hash old next k other
  copies : ∀ (c : Replicated.Cluster), c.hash = sharding.hash →
    ∀ slot, Replicated.copyChild c slot key = Replicated.copyChild c slot other
  merges : ∀ gs (next : UnitCount), (sharding.genUnitForKey gs key).id % next.n =
    (sharding.genUnitForKey gs other).id % next.n

theorem CoRouted.of_hash_eq {sharding : Sharding} {key other : Bytes}
    (same : sharding.hash key = sharding.hash other) : CoRouted sharding key other := by
  have resolves : ∀ gs, sharding.genUnitForKey gs key = sharding.genUnitForKey gs other := by
    intro gs
    rw [Sharding.genUnitForKey, same, Sharding.genUnitForKey]
  refine ⟨resolves, fun old next k => ?_, fun c hashes slot => ?_, fun gs next => ?_⟩
  · rw [SingleNode.copyTarget, same, SingleNode.copyTarget]
  · rw [Replicated.copyChild, hashes, same, Replicated.copyChild, hashes]
  · rw [resolves]

theorem shardKey_brefKey {ref : BlobRef} (filled : ref.routeShard ≠ [])
    (closed : 0x7d ∉ ref.routeShard) : shardKey (brefKey ref) = ref.routeShard :=
  shardKey_of_tagged ⟨brefRoot, 47 :: ref.blobID, by simp [brefKey], by decide, closed⟩ filled

/-- **Blob pointers co-route and are told apart.** -/
theorem blob_pointers_co_route (hashShardKey : Bytes → ShardHash) (routeKey unit blobID : Bytes)
    (filled : shardKey routeKey ≠ []) (closed : 0x7d ∉ shardKey routeKey) :
    let ref : BlobRef := ⟨unit, shardKey routeKey, blobID⟩
    shardKey (brefKey ref) = shardKey routeKey ∧
      CoRouted ⟨shardKey, hashShardKey⟩ (brefKey ref) routeKey ∧
      ∀ other : BlobRef, other.routeShard ≠ [] → 0x7d ∉ other.routeShard →
        brefKey other = brefKey ref →
          other.routeShard = ref.routeShard ∧ other.blobID = ref.blobID := by
  intro ref
  have tag : shardKey (brefKey ref) = shardKey routeKey := shardKey_brefKey filled closed
  refine ⟨tag, .of_hash_eq (congrArg hashShardKey tag), fun other filled' closed' same => ?_⟩
  have shards : other.routeShard = ref.routeShard := by
    rw [← shardKey_brefKey filled' closed', same, tag]
  refine ⟨shards, ?_⟩
  simpa [brefKey, shards] using same

def byteSum (bytes : Bytes) : ShardHash := bytes.foldl (fun sum byte => sum + byte.toUInt64) 0

theorem blob_pointer_of_tagged_route :
    let ref : BlobRef := ⟨[], [116], [98]⟩
    shardKey [120, 123, 116, 125] = [116] ∧ shardKey (brefKey ref) = [116] ∧
      byteSum (brefKey ref) ≠ byteSum [120, 123, 116, 125] ∧
      CoRouted ⟨shardKey, byteSum⟩ (brefKey ref) [120, 123, 116, 125] := by
  have routed := blob_pointers_co_route byteSum [120, 123, 116, 125] [] [98]
    (by decide) (by decide)
  exact ⟨by decide, routed.1, by decide, routed.2.1⟩

end Shale.Blob
