import Corvid.Interp.Runs
import Corvid.Interp.Streams.Collect
import Mathlib.Data.String.Basic

/-!
# Merging and splitting streams

A merged stream delivers every chunk of its sources once, and the groups of a split stream are a
stable partition of it. Both operations send what they have collected before anybody can receive, so
they come to an end only where it fits into the channels.

## Main definitions

* `Merged`: what a merged stream delivers under each policy
* `MergesAll`, `SplitsAll`: the operation returns, and nothing is lost or out of order

## Main results

* `mergesAll_iff`, `splitsAll_iff`: when they do
* `fan_iff`: both
-/

namespace Corvid.Interp.Streams

open Interp
open Interleave (Interleaves IsStableSort)
open Channels

variable (b : Boundary) {s s' : Channels} {n : ℕ} {streams : List StreamRef}

/-! ### Several streams from chunks -/

theorem exists_yields_streamsFromChunks {policy : BackpressurePolicy}
    {groups : List (List StreamChunk)} (hfits : ∀ group ∈ groups, Fits policy group.length) :
    ∃ refs s', Yields (streamsFromChunks policy groups) s (refs.map .stream) s' ∧ Keeps s s' ∧
      List.Forall₂ (fun group ref => s'.delivers ref.id = group.map .ok) groups refs := by
  induction groups generalizing s with
  | nil => exact ⟨[], s, yields_pure _ _, .refl s, .nil⟩
  | cons group groups ih =>
    obtain ⟨hgroup, hgroups⟩ := List.forall_mem_cons.mp hfits
    obtain ⟨s₁, hstream, hkeeps, hnext, hdelivers⟩ := exists_yields_streamFromChunks hgroup
    obtain ⟨refs, s', hyields, hkeeps', hrefs⟩ := ih hgroups
    refine ⟨⟨s.next, policy⟩ :: refs, s', hstream.bind (hyields.bind (yields_pure _ _)),
      hkeeps.trans hkeeps', .cons ?_ hrefs⟩
    rw [delivers, hkeeps'.2 _ (hnext ▸ Nat.lt_succ_self _)]
    exact hdelivers

theorem waits_streamsFromChunks {policy : BackpressurePolicy} {groups : List (List StreamChunk)}
    (hfull : ∃ group ∈ groups, ¬ Fits policy group.length) :
    Waits (streamsFromChunks policy groups) s := by
  induction groups generalizing s with
  | nil => obtain ⟨group, hmem, -⟩ := hfull; cases hmem
  | cons group groups ih =>
    by_cases hgroup : Fits policy group.length
    · obtain ⟨s₁, hstream, -⟩ := exists_yields_streamFromChunks hgroup
      obtain ⟨group', hmem, hnot⟩ := hfull
      have hrest : group' ∈ groups := (List.mem_cons.mp hmem).resolve_left fun h =>
        hnot (h ▸ hgroup)
      exact hstream.bind_waits (Waits.bind (ih ⟨group', hrest, hnot⟩))
    · exact Waits.bind (waits_streamFromChunks hgroup)

/-! ### Merging -/

/-- The channels of the streams, each once. -/
def sources (streams : List StreamRef) : List ℕ := (streams.map StreamRef.id).eraseDups

def inputs (s : Channels) (streams : List StreamRef) : List StreamChunk :=
  (sources streams).flatMap s.chunksOf

/-- The text by which the chunks are sorted. -/
def sortText (chunk : StreamChunk) : String := b.jsonText (b.valueToJson chunk.value)

def Merged (policy : StreamMergePolicy) (s : Channels) (streams : List StreamRef)
    (out : List StreamChunk) : Prop :=
  match policy with
  | .fifo => out = inputs s streams
  | .fairRoundRobin => Interleaves s.chunksOf (sources streams) out
  | .sorted => IsStableSort (sortText b) (inputs s streams) out

theorem Merged.perm {policy : StreamMergePolicy} {out : List StreamChunk}
    (h : Merged b policy s streams out) : out.Perm (inputs s streams) := by
  cases policy with
  | fifo => exact h ▸ .refl _
  | fairRoundRobin => exact Interleaves.perm h (Interleave.nodup_eraseDups _)
  | sorted => exact IsStableSort.perm h

theorem exists_yields_mergedChunks (policy : StreamMergePolicy)
    (hfree : ∀ stream ∈ streams, s.ErrorFree stream.id)
    (hn : ∀ stream ∈ streams, (s.chunksOf stream.id).length < n) :
    ∃ out s', Yields (mergedChunks b n streams policy) s out s' ∧ Merged b policy s streams out := by
  cases policy with
  | fifo =>
    obtain ⟨s', h⟩ := exists_yields_collectFifo hfree hn
    exact ⟨_, s', h, rfl⟩
  | fairRoundRobin =>
    obtain ⟨pulls, s', h, hpulled, hmem, hend⟩ := exists_yields_collectFairRoundRobin hfree hn
    refine ⟨_, s', h, hpulled.drains.interleaves (fun p hp => ?_) fun id hid => ?_⟩
    · exact Interleave.mem_eraseDups_iff.mpr (hmem p hp)
    · obtain ⟨stream, hstream, rfl⟩ := List.mem_map.mp (Interleave.mem_eraseDups_iff.mp hid)
      exact hend stream hstream
  | sorted =>
    obtain ⟨s', h⟩ := exists_yields_collectFifo hfree hn
    exact ⟨_, s', h.bind (yields_pure _ _), Interleave.isStableSort_mergeSort (sortText b) _⟩

theorem streamsFromValues_map (span : Span) (streams : List StreamRef) :
    streamsFromValues span (streams.map .stream) = .ok streams := by
  induction streams with
  | nil => rfl
  | cons stream streams ih =>
    rw [List.map_cons, streamsFromValues, ih]
    rfl

/-- With enough fuel the merge returns a stream, which delivers what the policy says and every chunk
of the inputs once. -/
def MergesAll (s : Channels) (streams : List StreamRef) (policy : StreamMergePolicy) : Prop :=
  ∃ n₀, ∀ n ≥ n₀, ∀ span, ∃ stream s' out,
    Yields (mergeStreams b n (.list (streams.map .stream)) policy span) s (.stream stream) s' ∧
      s'.delivers stream.id = out.map .ok ∧ Merged b policy s streams out ∧
      out.Perm (inputs s streams)

/-- A bound on the lengths of streams. -/
theorem exists_fuel (s : Channels) (streams : List StreamRef) :
    ∃ n₀, ∀ n ≥ n₀, ∀ stream ∈ streams, (s.chunksOf stream.id).length < n := by
  induction streams with
  | nil => exact ⟨0, by simp⟩
  | cons stream streams ih =>
    obtain ⟨n₀, h⟩ := ih
    refine ⟨max n₀ ((s.chunksOf stream.id).length + 1), fun n hn => List.forall_mem_cons.mpr ⟨?_, ?_⟩⟩
    · exact Nat.lt_of_succ_le ((le_max_right _ _).trans hn)
    · exact h n ((le_max_left _ _).trans hn)

/-- **Merging** comes to an end, with every chunk in its place, exactly where all chunks together fit
into the channel of the composed policy. -/
theorem mergesAll_iff (policy : StreamMergePolicy)
    (hfree : ∀ stream ∈ streams, s.ErrorFree stream.id) :
    MergesAll b s streams policy ↔
      Fits (mergedBackpressure streams) (inputs s streams).length := by
  obtain ⟨n₀, hfuel⟩ := exists_fuel s streams
  constructor
  · rintro ⟨n₁, hmerges⟩
    by_contra hfull
    obtain ⟨out, s₁, hout, hmerged⟩ :=
      exists_yields_mergedChunks b policy hfree (hfuel (max n₀ n₁) (le_max_left _ _))
    obtain ⟨stream, s', -, hyields, -⟩ := hmerges (max n₀ n₁) (le_max_right _ _) ⟨0, 0⟩
    have hwaits : Waits (mergeStreams b (max n₀ n₁) (.list (streams.map .stream)) policy ⟨0, 0⟩) s := by
      refine (yields_ofExcept (streamsFromValues_map _ streams)).bind_waits (hout.bind_waits
        (Waits.bind (waits_streamFromChunks ?_)))
      rwa [(hmerged.perm b).length_eq]
    exact hwaits.not_yields hyields
  · intro hfits
    refine ⟨n₀, fun n hn span => ?_⟩
    obtain ⟨out, s₁, hout, hmerged⟩ := exists_yields_mergedChunks b policy hfree (hfuel n hn)
    rw [← (hmerged.perm b).length_eq] at hfits
    obtain ⟨s', hstream, -, -, hdelivers⟩ := exists_yields_streamFromChunks hfits
    exact ⟨_, s', out, (yields_ofExcept (streamsFromValues_map span streams)).bind (hout.bind
      (hstream.bind (yields_pure _ _))), hdelivers, hmerged, hmerged.perm b⟩

/-! ### Splitting -/

/-- The element is a struct that has the field by which the stream is split. -/
def Keyed (key : String) (chunk : StreamChunk) : Prop :=
  ∃ k, ∀ span, groupKey b key span chunk = .ok (k, chunk)

/-- The group of a chunk that has one. -/
def groupOf (key : String) (chunk : StreamChunk) : String :=
  match groupKey b key ⟨0, 0⟩ chunk with
  | .ok (k, _) => k
  | .error _ => ""

/-- The chunks of a group, in order. -/
def groupIn (key : String) (chunks : List StreamChunk) (k : String) : List StreamChunk :=
  chunks.filter (groupOf b key · = k)

/-- The groups, in the order of their first chunks. -/
def groupsIn (key : String) (chunks : List StreamChunk) : List String :=
  (chunks.map (groupOf b key)).eraseDups

/-- With enough fuel the split returns a stream for each group, in the order of their first chunks,
and each delivers the chunks of its group in order. -/
def SplitsAll (s : Channels) (stream : StreamRef) (key : String) : Prop :=
  ∃ n₀, ∀ n ≥ n₀, ∀ span, ∃ groups s',
    Yields (splitBy b n (.stream stream) key span) s (.list (groups.map .stream)) s' ∧
      List.Forall₂ (fun k group =>
          s'.delivers group.id = (groupIn b key (s.chunksOf stream.id) k).map .ok)
        (groupsIn b key (s.chunksOf stream.id)) groups

variable {b} {key : String} {stream : StreamRef}

theorem Keyed.groupKey_eq {chunk : StreamChunk} (h : Keyed b key chunk) (span : Span) :
    groupKey b key span chunk = .ok (groupOf b key chunk, chunk) := by
  obtain ⟨k, hk⟩ := h
  rw [groupOf, hk span, hk]

theorem filter_keyed (chunks : List StreamChunk) (k : String) :
    ((chunks.map fun chunk => (groupOf b key chunk, chunk)).filter (·.1 = k)).map Prod.snd =
      groupIn b key chunks k := by
  rw [List.filter_map, List.map_map]
  exact List.map_id _

/-- What is collected for a split, and what becomes of it. -/
theorem exists_splitBy (hfree : s.ErrorFree stream.id)
    (hkeyed : ∀ chunk ∈ s.chunksOf stream.id, Keyed b key chunk)
    (hn : (s.chunksOf stream.id).length < n) (span : Span) :
    ∃ keyed s₁, Yields (collectStream (groupKey b key span) n stream) s keyed s₁ ∧
      ((keyed.map Prod.fst).reverse.dedup.reverse.map fun k =>
        (keyed.filter (·.1 = k)).map Prod.snd) =
        (groupsIn b key (s.chunksOf stream.id)).map (groupIn b key (s.chunksOf stream.id)) := by
  obtain ⟨s₁, hcollect, -⟩ := exists_yields_collectStream
    (f := fun chunk => (groupOf b key chunk, chunk)) hfree
    (fun chunk hmem => (hkeyed chunk hmem).groupKey_eq span) hn
  refine ⟨_, s₁, hcollect, ?_⟩
  rw [Interleave.reverse_dedup_reverse, List.map_map]
  exact List.map_congr_left fun k _ => filter_keyed _ k

/-- **Splitting** comes to an end, with every chunk in its group, exactly where every group fits into
a channel of the policy of the stream. -/
theorem splitsAll_iff (hfree : s.ErrorFree stream.id)
    (hkeyed : ∀ chunk ∈ s.chunksOf stream.id, Keyed b key chunk) :
    SplitsAll b s stream key ↔ ∀ k ∈ groupsIn b key (s.chunksOf stream.id),
      Fits stream.backpressure (groupIn b key (s.chunksOf stream.id) k).length := by
  constructor
  · rintro ⟨n₀, hsplits⟩ k hk
    by_contra hfull
    let n := max n₀ ((s.chunksOf stream.id).length + 1)
    obtain ⟨keyed, s₁, hcollect, hgroups⟩ :=
      exists_splitBy hfree hkeyed (Nat.lt_of_succ_le (le_max_right n₀ _)) ⟨0, 0⟩
    obtain ⟨groups, s', hyields, -⟩ := hsplits n (le_max_left _ _) ⟨0, 0⟩
    have hwaits : Waits (splitBy b n (.stream stream) key ⟨0, 0⟩) s := by
      refine hcollect.bind_waits (Waits.bind (waits_streamsFromChunks ?_))
      rw [hgroups]
      exact ⟨_, List.mem_map_of_mem hk, hfull⟩
    exact hwaits.not_yields hyields
  · intro hfits
    refine ⟨(s.chunksOf stream.id).length + 1, fun n hn span => ?_⟩
    obtain ⟨keyed, s₁, hcollect, hgroups⟩ :=
      exists_splitBy hfree hkeyed (Nat.lt_of_succ_le hn) span
    have hall : ∀ group ∈ (groupsIn b key (s.chunksOf stream.id)).map
        (groupIn b key (s.chunksOf stream.id)), Fits stream.backpressure group.length :=
      List.forall_mem_map.mpr hfits
    obtain ⟨refs, s', hstreams, -, hrefs⟩ := @exists_yields_streamsFromChunks s₁ _ _ hall
    refine ⟨refs, s', hcollect.bind ?_, List.forall₂_map_left_iff.mp hrefs⟩
    dsimp only
    rw [hgroups]
    exact hstreams.bind (yields_pure _ _)

variable (b)

/-- **Fan-in and fan-out.** On streams that end without an error, merging and splitting return what
they should exactly where what they make fits into the channels they make for it. -/
theorem fan_iff :
    (∀ (s : Channels) (streams : List StreamRef) (policy : StreamMergePolicy),
      (∀ stream ∈ streams, s.ErrorFree stream.id) →
      (MergesAll b s streams policy ↔
        Fits (mergedBackpressure streams) (inputs s streams).length)) ∧
    ∀ (s : Channels) (stream : StreamRef) (key : String), s.ErrorFree stream.id →
      (∀ chunk ∈ s.chunksOf stream.id, Keyed b key chunk) →
      (SplitsAll b s stream key ↔ ∀ k ∈ groupsIn b key (s.chunksOf stream.id),
        Fits stream.backpressure (groupIn b key (s.chunksOf stream.id) k).length) :=
  ⟨fun _ _ policy hfree => mergesAll_iff b policy hfree,
    fun _ _ _ hfree hkeyed => splitsAll_iff hfree hkeyed⟩

/-! ### Two streams of one element -/

section Events

def event (kind body : String) : StreamChunk :=
  .mk (.struct 3 "Event" [("kind", .string kind), ("body", .string body)]) 0 1 0

/-- The channels 0 and 1 deliver one element each, the others none. -/
def twoEvents : Channels where
  channel
    | 0 => ⟨none, [], [.ok (event "b" "two")], fun _ _ => Nat.zero_le _⟩
    | 1 => ⟨none, [.ok (event "a" "one")], [], fun _ h => nomatch h⟩
    | _ => .new none
  next := 2

theorem errorFree_twoEvents (id : ℕ) : twoEvents.ErrorFree id := by
  match id with
  | 0 => exact fun item h => ⟨_, List.mem_singleton.mp h⟩
  | 1 => exact fun item h => ⟨_, List.mem_singleton.mp h⟩
  | _ + 2 => exact fun item h => nomatch h

theorem keyed_twoEvents : ∀ chunk ∈ twoEvents.chunksOf 0, Keyed blank "kind" chunk := fun chunk h =>
  ⟨"b", fun _ => by rw [List.mem_singleton.mp h]; rfl⟩

theorem fan_iff_twoEvents :
    MergesAll blank twoEvents [⟨0, .bounded 2⟩, ⟨1, .pullsFrom "source"⟩] .fairRoundRobin ∧
      SplitsAll blank twoEvents ⟨0, .bounded 2⟩ "kind" := by
  refine ⟨((fan_iff blank).1 _ _ _ fun _ _ => errorFree_twoEvents _).mpr fun c hc => ?_,
    ((fan_iff blank).2 _ _ _ (errorFree_twoEvents 0) keyed_twoEvents).mpr fun k hk c hc => ?_⟩
  · cases hc
    decide
  · cases hc
    exact ⟨by decide, (List.length_filter_le _ _).trans (by decide)⟩

/-- One element each is too much for the channel of a merged stream that holds one. -/
theorem not_mergesAll_twoEvents :
    (∀ id, twoEvents.ErrorFree id) ∧
      ¬ MergesAll blank twoEvents [⟨0, .bounded 1⟩, ⟨1, .bounded 1⟩] .fifo := by
  refine ⟨errorFree_twoEvents, fun h => ?_⟩
  have hfits := (mergesAll_iff blank .fifo fun _ _ => errorFree_twoEvents _).mp h 1 rfl
  exact absurd hfits.2 (by decide)

end Events

end Corvid.Interp.Streams
