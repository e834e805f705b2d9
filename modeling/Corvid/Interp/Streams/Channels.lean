import Corvid.Interp.Eval
import Corvid.Lib.Interleave
import Corvid.Lib.Settle

/-!
# Channels

The environment of the operations on streams. A channel is a queue: its sender waits while the buffer
is full, its receiver takes what was sent first. On the other side of the streams that an operation is
given there is a task that still sends; the streams that it makes are sent to by nobody else, and
nobody receives from them before it returns.

## Main definitions

* `Channel`, `Channels`: a channel and its buffer, and all channels
* `answer`: what is answered to a query, if anything is
* `chunksOf`, `ErrorFree`: what a stream delivers
* `Yields`, `Waits`: what a computation comes to

## Main results

* `yields_nextChunk_nil`, `exists_yields_nextChunk`: the end of a stream, and the first of its chunks
* `yields_send`, `waits_send`: a channel with room, and a full one
-/

namespace Corvid.Interp.Streams

open Interp
open Interleave (Drains pullsOf)
open Store (Settled)

/-! ### Queues -/

/-- How many items are buffered. Where the elements of another stream are pulled, it is one. -/
def capacity : BackpressurePolicy → Option ℕ
  | .bounded size => some size
  | .pullsFrom _ => some 1
  | .unbounded => none

abbrev Item := Except InterpError StreamChunk

structure Channel where
  capacity : Option ℕ
  buffer : List Item
  /-- What a task on the other side still sends, before it drops the sender. -/
  coming : List Item
  length_le : ∀ c ∈ capacity, buffer.length ≤ c

namespace Channel

def new (capacity : Option ℕ) : Channel := ⟨capacity, [], [], fun _ _ => Nat.zero_le _⟩

def delivers (ch : Channel) : List Item := ch.buffer ++ ch.coming

def HasRoom (ch : Channel) : Prop := ∀ c ∈ ch.capacity, ch.buffer.length < c

instance (ch : Channel) : Decidable ch.HasRoom :=
  match h : ch.capacity with
  | none => isTrue fun c hc => by simp [h] at hc
  | some c => decidable_of_iff (ch.buffer.length < c) (by simp [HasRoom, h])

def push (ch : Channel) (item : Item) (h : ch.HasRoom) : Channel where
  capacity := ch.capacity
  buffer := ch.buffer ++ [item]
  coming := ch.coming
  length_le c hc := by simpa using Nat.succ_le_of_lt (h c hc)

/-- The first item, and what is left. An empty buffer waits for the task. -/
def pop (ch : Channel) : Option (Item × Channel) :=
  match hbuffer : ch.buffer, ch.coming with
  | item :: buffer, coming => some (item, ⟨ch.capacity, buffer, coming, fun c hc => by
      have := ch.length_le c hc
      rw [hbuffer] at this
      exact (Nat.le_succ _).trans this⟩)
  | [], item :: coming => some (item, ⟨ch.capacity, [], coming, fun _ _ => Nat.zero_le _⟩)
  | [], [] => none

theorem pop_of_nil {ch : Channel} (h : ch.delivers = []) : ch.pop = none := by
  obtain ⟨hbuffer, hcoming⟩ := List.append_eq_nil_iff.mp h
  unfold pop
  split <;> simp_all

theorem pop_of_cons {ch : Channel} {item : Item} {items : List Item}
    (h : ch.delivers = item :: items) :
    ∃ ch', ch.pop = some (item, ch') ∧ ch'.delivers = items := by
  unfold delivers at h
  unfold pop
  split
  · rename_i hbuffer
    rw [hbuffer, List.cons_append] at h
    cases h
    exact ⟨_, rfl, rfl⟩
  · rename_i hbuffer hcoming
    rw [hbuffer, hcoming, List.nil_append] at h
    cases h
    exact ⟨_, rfl, rfl⟩
  · simp_all

end Channel

/-! ### The environment -/

structure Channels where
  channel : ℕ → Channel
  /-- The number of the next channel. -/
  next : ℕ

namespace Channels

def set (s : Channels) (id : ℕ) (ch : Channel) : Channels :=
  { s with channel := Function.update s.channel id ch }

@[simp] theorem set_channel_self (s : Channels) (id : ℕ) (ch : Channel) :
    (s.set id ch).channel id = ch :=
  Function.update_self ..

theorem set_channel_of_ne (s : Channels) {id id' : ℕ} (h : id' ≠ id) (ch : Channel) :
    (s.set id ch).channel id' = s.channel id' :=
  Function.update_of_ne h ..

@[simp] theorem set_next (s : Channels) (id : ℕ) (ch : Channel) : (s.set id ch).next = s.next := rfl

theorem set_self (s : Channels) (id : ℕ) : s.set id (s.channel id) = s := by
  rw [Channels.set, Function.update_eq_self]

theorem set_set (s : Channels) (id : ℕ) (ch ch' : Channel) :
    (s.set id ch).set id ch' = s.set id ch' := by
  simp [Channels.set]

/-- With a new channel. -/
def alloc (s : Channels) (capacity : Option ℕ) : Channels where
  channel := Function.update s.channel s.next (.new capacity)
  next := s.next + 1

@[simp] theorem alloc_channel_next (s : Channels) (capacity : Option ℕ) :
    (s.alloc capacity).channel s.next = .new capacity :=
  Function.update_self ..

theorem alloc_channel_of_ne (s : Channels) {id : ℕ} (h : id ≠ s.next) (capacity : Option ℕ) :
    (s.alloc capacity).channel id = s.channel id :=
  Function.update_of_ne h ..

@[simp] theorem alloc_next (s : Channels) (capacity : Option ℕ) :
    (s.alloc capacity).next = s.next + 1 := rfl

/-- What is still received from a channel, in order. -/
def delivers (s : Channels) (id : ℕ) : List Item := (s.channel id).delivers

def chunksOf (s : Channels) (id : ℕ) : List StreamChunk := (s.delivers id).filterMap Except.toOption

def ErrorFree (s : Channels) (id : ℕ) : Prop := ∀ item ∈ s.delivers id, ∃ chunk, item = .ok chunk

theorem delivers_eq_map {s : Channels} {id : ℕ} (h : s.ErrorFree id) :
    s.delivers id = (s.chunksOf id).map .ok := by
  unfold chunksOf
  unfold ErrorFree at h
  generalize s.delivers id = items at h
  induction items with
  | nil => rfl
  | cons item items ih =>
    obtain ⟨chunk, rfl⟩ := h _ (.head _)
    rw [List.filterMap_cons_some (f := Except.toOption) (b := chunk) rfl, List.map_cons, ← ih fun item' hitem => h item' (.tail _ hitem)]

end Channels

open Channels

/-- A channel without a buffer cannot be made. A sender is answered when there is room, and the end of
a stream is answered when its sender is gone. -/
def answer : (q : Query) → Channels → Option (Reply q × Channels)
  | .channel policy, s =>
    if policy = .bounded 0 then none
    else some (⟨s.next, policy⟩, s.alloc (capacity policy))
  | .send stream item, s =>
    if h : (s.channel stream.id).HasRoom then
      some (true, s.set stream.id ((s.channel stream.id).push item h))
    else none
  | .nextChunk stream, s =>
    match (s.channel stream.id).pop with
    | some (item, ch) => some (some item, s.set stream.id ch)
    | none => some (none, s)
  | _, _ => none

/-! ### Computations -/

variable {α β : Type}

/-- The computation returns a value, and leaves the interpreter as it was. -/
def Yields (m : Interp α) (s : Channels) (a : α) (s' : Channels) : Prop :=
  ∀ st, (m st).settle answer s = .returned (.ok a, st) s'

/-- The computation waits for an answer that does not come. -/
def Waits (m : Interp α) (s : Channels) : Prop :=
  ∀ st, ∃ q s', (m st).settle answer s = .waiting q s'

variable {m : Interp α} {f : α → Interp β} {s s' s'' : Channels} {a : α} {b : β}

theorem settle_bind (st : Interpreter) :
    ((m >>= f) st).settle answer s =
      match (m st).settle answer s with
      | .returned (.ok a, st') s' => (f a st').settle answer s'
      | .returned (.error e, st') s' => .returned (.error e, st') s'
      | .failed h s' => .failed h s'
      | .waiting q s' => .waiting q s' := by
  change (Interp.bind m f st).settle answer s = _
  rw [Interp.bind, Store.Prog.settle_bind]
  split <;> rename_i hm
  · split <;> simp_all
  · simp_all
  · simp_all

theorem yields_pure (a : α) (s : Channels) : Yields (pure a) s a s := fun _ => rfl

theorem Yields.bind (hm : Yields m s a s') (hf : Yields (f a) s' b s'') :
    Yields (m >>= f) s b s'' := fun st => by
  rw [settle_bind, hm st]
  exact hf st

theorem Yields.bind_waits (hm : Yields m s a s') (hf : Waits (f a) s') :
    Waits (m >>= f) s := fun st => by
  rw [settle_bind, hm st]
  exact hf st

theorem Waits.bind (hm : Waits m s) : Waits (m >>= f) s := fun st => by
  obtain ⟨q, s', h⟩ := hm st
  exact ⟨q, s', by rw [settle_bind, h]⟩

theorem Waits.not_yields (h : Waits m s) : ¬ Yields m s a s' := fun hy => by
  obtain ⟨q, s'', hq⟩ := h {}
  rw [hy {}] at hq
  cases hq

theorem yields_ask {q : Query} {r : Reply q} (h : answer q s = some (r, s')) :
    Yields (ask q) s r s' := fun st => by
  rw [ask, Store.Prog.settle_call_of_some h, Store.Prog.settle_ret]

theorem waits_ask {q : Query} (h : answer q s = none) : Waits (ask q) s := fun st =>
  ⟨q, s, by rw [ask, Store.Prog.settle_call_of_none h]⟩

theorem yields_ofExcept {x : Except InterpError α} (h : x = .ok a) : Yields (ofExcept x) s a s := by
  rw [h]
  exact yields_pure a s

/-! ### Receiving -/

/-- Chunks were received, each the first of its stream, and nothing else has changed. -/
structure Pulled (s : Channels) (pulls : List (ℕ × StreamChunk)) (s' : Channels) : Prop where
  drains : Drains s.chunksOf pulls s'.chunksOf
  errorFree : ∀ id, s.ErrorFree id → s'.ErrorFree id

variable {pulls pulls' : List (ℕ × StreamChunk)}

theorem Pulled.refl (s : Channels) : Pulled s [] s := ⟨.refl _, fun _ h => h⟩

theorem Pulled.trans (h : Pulled s pulls s') (h' : Pulled s' pulls' s'') :
    Pulled s (pulls ++ pulls') s'' :=
  ⟨h.drains.trans h'.drains, fun id hid => h'.errorFree id (h.errorFree id hid)⟩

theorem Pulled.length_le (h : Pulled s pulls s') (id : ℕ) :
    (s'.chunksOf id).length ≤ (s.chunksOf id).length := by
  rw [h.drains id, List.length_append]
  exact Nat.le_add_left _ _

/-- A stream from which a chunk was received has become shorter. -/
theorem Pulled.length_lt (h : Pulled s pulls s') {id : ℕ} {chunk : StreamChunk}
    (hmem : (id, chunk) ∈ pulls) : (s'.chunksOf id).length < (s.chunksOf id).length := by
  have hpos : 0 < (pullsOf id pulls).length := by
    rw [List.length_pos_iff_exists_mem]
    exact ⟨chunk, List.mem_map.mpr ⟨_, List.mem_filter.mpr ⟨hmem, by simp⟩, rfl⟩⟩
  rw [h.drains id, List.length_append]
  omega

variable {stream : StreamRef}

theorem yields_nextChunk_nil (hfree : s.ErrorFree stream.id) (h : s.chunksOf stream.id = []) :
    Yields (ask (.nextChunk stream)) s none s := by
  refine yields_ask ?_
  have hnil : (s.channel stream.id).delivers = [] := by
    change s.delivers stream.id = []
    rw [delivers_eq_map hfree, h, List.map_nil]
  rw [answer, Channel.pop_of_nil hnil]

theorem exists_yields_nextChunk (hfree : s.ErrorFree stream.id) {chunk : StreamChunk}
    {chunks : List StreamChunk} (h : s.chunksOf stream.id = chunk :: chunks) :
    ∃ s', Yields (ask (.nextChunk stream)) s (some (.ok chunk)) s' ∧
      Pulled s [(stream.id, chunk)] s' ∧ s'.chunksOf stream.id = chunks := by
  have hcons : (s.channel stream.id).delivers = .ok chunk :: chunks.map .ok := by
    change s.delivers stream.id = _
    rw [delivers_eq_map hfree, h, List.map_cons]
  obtain ⟨ch, hpop, hch⟩ := Channel.pop_of_cons hcons
  have hself : (s.set stream.id ch).delivers stream.id = chunks.map .ok := by
    rw [delivers, set_channel_self, hch]
  have hother {id : ℕ} (hid : id ≠ stream.id) : (s.set stream.id ch).delivers id = s.delivers id := by
    rw [delivers, set_channel_of_ne s hid, delivers]
  have hchunks : (s.set stream.id ch).chunksOf stream.id = chunks := by
    rw [chunksOf, hself, List.filterMap_map]
    exact List.filterMap_some
  refine ⟨_, yields_ask (by rw [answer, hpop]), ⟨?_, fun id hid => ?_⟩, hchunks⟩
  · exact Drains.single h hchunks fun id hid => by rw [chunksOf, hother hid, chunksOf]
  · by_cases heq : id = stream.id
    · subst heq
      intro item hitem
      rw [hself] at hitem
      obtain ⟨chunk', -, rfl⟩ := List.mem_map.mp hitem
      exact ⟨chunk', rfl⟩
    · unfold ErrorFree
      rw [hother heq]
      exact hid

/-! ### Sending -/

/-- So many chunks can be sent into a channel of the policy before anybody receives. -/
def Fits (policy : BackpressurePolicy) (count : ℕ) : Prop :=
  ∀ c ∈ capacity policy, 0 < c ∧ count ≤ c

/-- What an operation has made stays as it is while others are made. -/
def Keeps (s s' : Channels) : Prop :=
  s.next ≤ s'.next ∧ ∀ id < s.next, s'.channel id = s.channel id

theorem Keeps.refl (s : Channels) : Keeps s s := ⟨le_refl _, fun _ _ => rfl⟩

theorem Keeps.trans (h : Keeps s s') (h' : Keeps s' s'') : Keeps s s'' :=
  ⟨h.1.trans h'.1, fun id hid => (h'.2 id (hid.trans_le h.1)).trans (h.2 id hid)⟩

theorem answer_send {item : Item} (h : (s.channel stream.id).HasRoom) :
    answer (.send stream item) s =
      some (true, s.set stream.id ((s.channel stream.id).push item h)) := by
  rw [answer, dif_pos h]

/-- The chunks are buffered where there is room for all of them. -/
theorem exists_yields_sendAll {chunks : List StreamChunk}
    (hcoming : (s.channel stream.id).coming = [])
    (hroom : ∀ c ∈ (s.channel stream.id).capacity,
      (s.channel stream.id).buffer.length + chunks.length ≤ c) :
    ∃ ch, Yields (sendAll stream chunks) s () (s.set stream.id ch) ∧
      ch.delivers = (s.channel stream.id).delivers ++ chunks.map .ok := by
  induction chunks generalizing s with
  | nil =>
    refine ⟨s.channel stream.id, ?_, by simp⟩
    rw [set_self]
    exact yields_pure () s
  | cons chunk chunks ih =>
    have hone : (s.channel stream.id).HasRoom := fun c hc => by
      have := hroom c hc
      rw [List.length_cons] at this
      omega
    obtain ⟨ch, hyields, hch⟩ :=
      ih (s := s.set stream.id ((s.channel stream.id).push (.ok chunk) hone))
        (by rw [set_channel_self]; exact hcoming) fun c hc => by
          rw [set_channel_self] at hc ⊢
          have := hroom c hc
          simp only [Channel.push, List.length_append, List.length_cons, List.length_nil] at this ⊢
          omega
    rw [set_set] at hyields
    refine ⟨ch, (yields_ask (answer_send hone)).bind ?_, ?_⟩
    · rw [if_pos rfl]
      exact hyields
    · rw [hch, set_channel_self]
      simp [Channel.push, Channel.delivers, hcoming]

/-- The first chunk for which there is no room is not taken. -/
theorem waits_sendAll {chunks : List StreamChunk}
    (hfull : ∃ c ∈ (s.channel stream.id).capacity,
      c < (s.channel stream.id).buffer.length + chunks.length) :
    Waits (sendAll stream chunks) s := by
  induction chunks generalizing s with
  | nil =>
    obtain ⟨c, hc, hlt⟩ := hfull
    exact absurd ((s.channel stream.id).length_le c hc) (by simpa using hlt)
  | cons chunk chunks ih =>
    by_cases hone : (s.channel stream.id).HasRoom
    · refine (yields_ask (answer_send hone)).bind_waits ?_
      rw [if_pos rfl]
      refine ih ?_
      obtain ⟨c, hc, hlt⟩ := hfull
      refine ⟨c, by rwa [set_channel_self], ?_⟩
      rw [set_channel_self]
      simp only [Channel.push, List.length_append, List.length_cons, List.length_nil] at hlt ⊢
      omega
    · exact Waits.bind (waits_ask (by rw [answer, dif_neg hone]))

theorem answer_channel {policy : BackpressurePolicy} (h : policy ≠ .bounded 0) :
    answer (.channel policy) s = some (⟨s.next, policy⟩, s.alloc (capacity policy)) := by
  rw [answer, if_neg h]

/-- **A stream of chunks** is made where they all fit into its channel. -/
theorem exists_yields_streamFromChunks {policy : BackpressurePolicy} {chunks : List StreamChunk}
    (hfits : Fits policy chunks.length) :
    ∃ s', Yields (streamFromChunks chunks policy) s ⟨s.next, policy⟩ s' ∧ Keeps s s' ∧
      s'.next = s.next + 1 ∧ s'.delivers s.next = chunks.map .ok := by
  have hpolicy : policy ≠ .bounded 0 := by
    rintro rfl
    exact absurd (hfits 0 rfl).1 (lt_irrefl 0)
  obtain ⟨ch, hsend, hch⟩ := @exists_yields_sendAll (s.alloc (capacity policy)) ⟨s.next, policy⟩
    chunks (by simp [Channel.new]) fun c hc => by
      rw [alloc_channel_next] at hc ⊢
      simpa [Channel.new] using (hfits c hc).2
  refine ⟨_, (yields_ask (answer_channel hpolicy)).bind (hsend.bind (yields_pure _ _)),
    ⟨by simp, fun id hid => ?_⟩, by simp, ?_⟩
  · rw [set_channel_of_ne _ hid.ne, alloc_channel_of_ne s hid.ne]
  · rw [delivers, set_channel_self, hch, alloc_channel_next]
    rfl

theorem waits_streamFromChunks {policy : BackpressurePolicy} {chunks : List StreamChunk}
    (hfits : ¬ Fits policy chunks.length) : Waits (streamFromChunks chunks policy) s := by
  by_cases hpolicy : policy = .bounded 0
  · exact Waits.bind (waits_ask (by rw [answer, if_pos hpolicy]))
  · refine (yields_ask (answer_channel hpolicy)).bind_waits (Waits.bind (waits_sendAll ?_))
    unfold Fits at hfits
    push Not at hfits
    obtain ⟨c, hc, hlt⟩ := hfits
    have hpos : 0 < c := by
      refine Nat.pos_of_ne_zero fun hzero => hpolicy ?_
      subst hzero
      cases policy with
      | bounded size => exact congrArg _ (Option.some.inj hc)
      | pullsFrom source => cases hc
      | unbounded => cases hc
    refine ⟨c, ?_, ?_⟩
    · rw [alloc_channel_next]
      exact hc
    · rw [alloc_channel_next]
      simpa [Channel.new] using hlt hpos

end Corvid.Interp.Streams
