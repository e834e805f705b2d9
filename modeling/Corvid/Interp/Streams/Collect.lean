import Corvid.Interp.Streams.Channels

/-!
# Collecting streams

What the loops that collect streams return, on streams that end without an error: a stream to its end,
streams one after the other, and streams in rounds, each round taking one chunk of every stream that
has not ended.

## Main results

* `exists_yields_collectStream`, `exists_yields_collectFifo`: one stream, and one after the other
* `exists_yields_collectFairRoundRobin`: in rounds, an interleaving
-/

namespace Corvid.Interp.Streams

open Interp
open Interleave (Drains pullsOf)
open Channels

variable {α : Type} {s s' : Channels} {n : ℕ}

/-- A stream is collected to its end, each chunk checked as it comes. -/
theorem exists_yields_collectStream {check : StreamChunk → Except InterpError α}
    {f : StreamChunk → α} {stream : StreamRef} (hfree : s.ErrorFree stream.id)
    (hcheck : ∀ chunk ∈ s.chunksOf stream.id, check chunk = .ok (f chunk))
    (hn : (s.chunksOf stream.id).length < n) :
    ∃ s', Yields (collectStream check n stream) s ((s.chunksOf stream.id).map f) s' ∧
      Pulled s ((s.chunksOf stream.id).map fun chunk => (stream.id, chunk)) s' := by
  induction n generalizing s with
  | zero => exact absurd hn (Nat.not_lt_zero _)
  | succ n ih =>
    cases hchunks : s.chunksOf stream.id with
    | nil =>
      exact ⟨s, (yields_nextChunk_nil hfree hchunks).bind (yields_pure _ _), .refl s⟩
    | cons chunk chunks =>
      obtain ⟨s₁, hnext, hpulled, hrest⟩ := exists_yields_nextChunk hfree hchunks
      rw [hchunks] at hcheck hn
      obtain ⟨hchunk, hcheck⟩ := List.forall_mem_cons.mp hcheck
      obtain ⟨s', hyields, hpulled'⟩ := ih (hpulled.errorFree _ hfree) (hrest ▸ hcheck)
        (by rw [hrest]; exact Nat.lt_of_succ_lt_succ hn)
      rw [hrest] at hyields hpulled'
      refine ⟨s', hnext.bind ?_, hpulled.trans hpulled'⟩
      exact (yields_ofExcept rfl).bind ((yields_ofExcept hchunk).bind
        (hyields.bind (yields_pure _ _)))

/-- The chunks of one stream leave the others as they were. -/
theorem Pulled.drained {id : ℕ}
    (h : Pulled s ((s.chunksOf id).map fun chunk => (id, chunk)) s') :
    s'.chunksOf id = [] ∧ ∀ id', id' ≠ id → s'.chunksOf id' = s.chunksOf id' := by
  have hpulls (id' : ℕ) (chunks : List StreamChunk) :
      pullsOf id' (chunks.map fun chunk => (id, chunk)) = if id = id' then chunks else [] := by
    induction chunks with
    | nil => simp
    | cons chunk chunks ih =>
      rw [List.map_cons, Interleave.pullsOf_cons, ih]
      split <;> rfl
  constructor
  · have := h.drains id
    rw [hpulls, if_pos rfl] at this
    exact List.self_eq_append_right.mp this
  · intro id' hid
    have := h.drains id'
    rw [hpulls, if_neg (Ne.symm hid), List.nil_append] at this
    exact this.symm

/-- Streams are collected one after the other. A stream that is listed again has nothing left. -/
theorem exists_yields_collectFifo {streams : List StreamRef}
    (hfree : ∀ stream ∈ streams, s.ErrorFree stream.id)
    (hn : ∀ stream ∈ streams, (s.chunksOf stream.id).length < n) :
    ∃ s', Yields (collectFifo n streams) s
      ((streams.map StreamRef.id).eraseDups.flatMap s.chunksOf) s' := by
  induction streams generalizing s with
  | nil => exact ⟨s, yields_pure _ _⟩
  | cons stream streams ih =>
    obtain ⟨hhead, htail⟩ := List.forall_mem_cons.mp hfree
    obtain ⟨hnhead, hntail⟩ := List.forall_mem_cons.mp hn
    obtain ⟨s₁, hcollect, hpulled⟩ :=
      exists_yields_collectStream (f := id) hhead (fun _ _ => rfl) hnhead
    obtain ⟨hnil, hother⟩ := hpulled.drained
    obtain ⟨s', hrest⟩ := ih (fun stream' h => hpulled.errorFree _ (htail stream' h))
      fun stream' h => (hpulled.length_le _).trans_lt (hntail stream' h)
    refine ⟨s', hcollect.bind (hrest.bind ?_)⟩
    rw [List.map_id, List.map_cons, List.eraseDups_cons, List.flatMap_cons,
      Interleave.flatMap_eraseDups_filter hnil hother]
    exact yields_pure _ _

/-- **One round** takes a chunk of every stream that has one left. -/
theorem exists_yields_fairRound {streams : List StreamRef}
    (hfree : ∀ stream ∈ streams, s.ErrorFree stream.id) :
    ∃ active pulls s', Yields (fairRound streams) s (active, pulls.map Prod.snd) s' ∧
      Pulled s pulls s' ∧ (∀ p ∈ pulls, p.1 ∈ streams.map StreamRef.id) ∧
      (∀ stream ∈ active, stream ∈ streams ∧ ∃ chunk, (stream.id, chunk) ∈ pulls) ∧
      ∀ stream ∈ streams, stream ∈ active ∨ s'.chunksOf stream.id = [] := by
  induction streams generalizing s with
  | nil => exact ⟨[], [], s, yields_pure _ _, .refl s, by simp, by simp, by simp⟩
  | cons stream streams ih =>
    obtain ⟨hhead, htail⟩ := List.forall_mem_cons.mp hfree
    cases hchunks : s.chunksOf stream.id with
    | nil =>
      obtain ⟨active, pulls, s', hyields, hpulled, hmem, hactive, hended⟩ := ih htail
      refine ⟨active, pulls, s', (yields_nextChunk_nil hhead hchunks).bind hyields, hpulled,
        fun p hp => .tail _ (hmem p hp), fun st hst => ?_, fun st hst => ?_⟩
      · obtain ⟨hst, hpull⟩ := hactive st hst
        exact ⟨.tail _ hst, hpull⟩
      · rcases List.mem_cons.mp hst with rfl | hst
        · exact .inr (hpulled.drains.eq_nil hchunks)
        · exact hended st hst
    | cons chunk chunks =>
      obtain ⟨s₁, hnext, hpull, -⟩ := exists_yields_nextChunk hhead hchunks
      obtain ⟨active, pulls, s', hyields, hpulled, hmem, hactive, hended⟩ :=
        ih fun st hst => hpull.errorFree _ (htail st hst)
      refine ⟨stream :: active, (stream.id, chunk) :: pulls, s', hnext.bind ((yields_ofExcept rfl).bind
        (hyields.bind (yields_pure _ _))), hpull.trans hpulled, fun p hp => ?_, fun st hst => ?_,
        fun st hst => ?_⟩
      · rcases List.mem_cons.mp hp with rfl | hp
        · exact .head _
        · exact .tail _ (hmem p hp)
      · rcases List.mem_cons.mp hst with rfl | hst
        · exact ⟨.head _, chunk, .head _⟩
        · obtain ⟨hst, c, hc⟩ := hactive st hst
          exact ⟨.tail _ hst, c, .tail _ hc⟩
      · rcases List.mem_cons.mp hst with rfl | hst
        · exact .inl (.head _)
        · exact (hended st hst).imp_left (.tail _)

/-- **The rounds** come to an end, each stream in the round in which it has nothing left, and what
they take is an interleaving of the streams. -/
theorem exists_yields_collectFairRoundRobin {streams : List StreamRef}
    (hfree : ∀ stream ∈ streams, s.ErrorFree stream.id)
    (hn : ∀ stream ∈ streams, (s.chunksOf stream.id).length < n) :
    ∃ pulls s', Yields (collectFairRoundRobin n streams) s (pulls.map Prod.snd) s' ∧
      Pulled s pulls s' ∧ (∀ p ∈ pulls, p.1 ∈ streams.map StreamRef.id) ∧
      ∀ stream ∈ streams, s'.chunksOf stream.id = [] := by
  induction n generalizing s streams with
  | zero =>
    cases streams with
    | nil => exact ⟨[], s, yields_pure _ _, .refl s, by simp, by simp⟩
    | cons stream streams => exact absurd (hn stream (.head _)) (Nat.not_lt_zero _)
  | succ n ih =>
    cases hstreams : streams with
    | nil => exact ⟨[], s, yields_pure _ _, .refl s, by simp, by simp⟩
    | cons stream rest =>
      rw [← hstreams]
      obtain ⟨active, pulls, s₁, hround, hpulled, hmem, hactive, hended⟩ :=
        exists_yields_fairRound hfree
      obtain ⟨pulls', s', hyields, hpulled', hmem', hend⟩ := @ih s₁ active
        (fun st hst => hpulled.errorFree _ (hfree st (hactive st hst).1)) fun st hst => by
          obtain ⟨hst, chunk, hchunk⟩ := hactive st hst
          exact Nat.lt_of_lt_of_le (hpulled.length_lt hchunk) (Nat.le_of_lt_succ (hn st hst))
      refine ⟨pulls ++ pulls', s', ?_, hpulled.trans hpulled', fun p hp => ?_, fun st hst => ?_⟩
      · rw [List.map_append, hstreams, collectFairRoundRobin, ← hstreams]
        · exact hround.bind (hyields.bind (yields_pure _ _))
        · simp
      · rcases List.mem_append.mp hp with hp | hp
        · exact hmem p hp
        · obtain ⟨st, hst, heq⟩ := List.mem_map.mp (hmem' p hp)
          exact heq ▸ List.mem_map_of_mem (hactive st hst).1
      · rcases hended st hst with hst | hnil
        · exact hend st hst
        · exact hpulled'.drains.eq_nil hnil

end Corvid.Interp.Streams
