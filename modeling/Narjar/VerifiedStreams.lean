import Narjar.ByteStreams
import Narjar.ManifestFormat

/-!
# Verified streams and ranges of them

A producer writes a NAR into a pipe and reports how it went. The reader of the pipe hands out the
bytes as they come, but the last of them only after the size, the hash and the report of the
producer have been checked. A range of the NAR is read by skipping what precedes it and, before
its last byte is handed out, everything that follows it.
-/
namespace VerifiedStreams

open ByteCodecs ManifestFormat ByteStreams List

variable {ε : Type}

inductive StreamError (ε : Type) where
  /-- Of a read of the pipe, or the one the producer reports. -/
  | failed (error : ε)
  /-- NAR producer result was dropped -/
  | producerDropped
  /-- NAR producer ended before the declared size -/
  | endedEarly
  /-- NAR identity mismatch -/
  | identityMismatch (expected actual : NarIdentity)
  /-- NAR producer exceeded the declared size -/
  | exceededSize
  /-- verified NAR stream is in a failed state -/
  | failedStream
  /-- native NAR ended while skipping to requested range -/
  | endedWhileSkipping
  /-- native NAR range stream is in a failed state -/
  | failedRange
  /-- native NAR response range is outside the declared identity -/
  | outsideIdentity
  deriving DecidableEq

/-- The pipe, how many bytes of it are still wanted, and the bytes hashed so far. The producer
reports once, and a dropped report is `none`. -/
structure ReceivingStream (ε : Type) where
  reader : Source UInt8 ε
  limit : ℕ
  producer : Option (Except ε Unit)
  expected : NarIdentity
  digest : Bytes

inductive StreamState (ε : Type) where
  | streaming (stream : ReceivingStream ε)
  | complete
  | failed

def StreamState.new (expected : NarIdentity) (reader : Source UInt8 ε)
    (producer : Option (Except ε Unit)) : StreamState ε :=
  .streaming ⟨reader, expected.size, producer, expected, []⟩

def waitForProducerCompletion : Option (Except ε Unit) → Except (StreamError ε) Unit
  | none => .error .producerDropped
  | some (.error error) => .error (.failed error)
  | some (.ok ()) => .ok ()

/-- A read of the pipe that stops at the limit, where the pipe is not read any more. -/
def takeRead (capacity limit : ℕ) (reader : Source UInt8 ε) : Except ε Bytes × Source UInt8 ε :=
  if limit = 0 then (.ok [], reader)
  else readUninterrupted (min capacity limit) reader.data reader.answers

namespace ReceivingStream

def readChunk (stream : ReceivingStream ε) (capacity : ℕ) :
    Except (StreamError ε) (ReceivingStream ε × Bytes) :=
  match takeRead capacity stream.limit stream.reader with
  | (.error error, _) => .error (.failed error)
  | (.ok bytes, reader) =>
    if bytes.length = 0 ∧ stream.limit - bytes.length ≠ 0 then
      match waitForProducerCompletion stream.producer with
      | .error error => .error error
      | .ok () => .error .endedEarly
    else
      .ok ({ stream with reader, limit := stream.limit - bytes.length,
                         digest := stream.digest ++ bytes }, bytes)

variable (sha256 : Bytes → Digest)

def verifyIdentityAndProducerCompletion (stream : ReceivingStream ε) :
    Except (StreamError ε) Unit :=
  if sha256 stream.digest ≠ stream.expected.hash then
    .error (.identityMismatch stream.expected ⟨sha256 stream.digest, stream.expected.size⟩)
  else
    match (readUninterrupted 1 stream.reader.data stream.reader.answers).1 with
    | .error error => .error (.failed error)
    | .ok bytes =>
      if bytes.length ≠ 0 then .error .exceededSize
      else waitForProducerCompletion stream.producer

def readAndVerifyCompletion (stream : ReceivingStream ε) (capacity : ℕ) :
    Except (StreamError ε) (StreamState ε × Bytes) :=
  match stream.readChunk capacity with
  | .error error => .error error
  | .ok (stream, bytes) =>
    if stream.limit = 0 then
      match stream.verifyIdentityAndProducerCompletion sha256 with
      | .error error => .error error
      | .ok () => .ok (.complete, bytes)
    else .ok (.streaming stream, bytes)

end ReceivingStream

namespace StreamState

variable (sha256 : Bytes → Digest)

def readAndVerifyCompletion (state : StreamState ε) (capacity : ℕ) :
    Except (StreamError ε) (StreamState ε × Bytes) :=
  match state with
  | .streaming stream => stream.readAndVerifyCompletion sha256 capacity
  | .complete => .ok (.complete, [])
  | .failed => .error .failedStream

/-- One read of a verified stream. The state is the failed one while a read is under way, and
stays so when it returns an error. -/
def read (state : StreamState ε) (capacity : ℕ) : Except (StreamError ε) Bytes × StreamState ε :=
  if capacity = 0 then (.ok [], state)
  else
    match state.readAndVerifyCompletion sha256 capacity with
    | .error error => (.error error, .failed)
    | .ok (next, bytes) => (.ok bytes, next)

def remaining : StreamState ε → ℕ
  | .streaming stream => stream.limit
  | .complete => 0
  | .failed => 0

end StreamState

inductive RangeReadState where
  | serving
  | complete
  | failed
  deriving DecidableEq, Repr

structure NativeNarRangeReader (ε : Type) where
  source : StreamState ε
  start : ℕ
  stop : ℕ
  position : ℕ
  state : RangeReadState

def validateDeliveryRange (start stop length : ℕ) : Except (StreamError ε) Unit :=
  if start ≤ stop ∧ stop ≤ length then .ok () else .error .outsideIdentity

def discardBufferSize : ℕ := 64 * 1024

namespace NativeNarRangeReader

def new (expected : NarIdentity) (pipe : Source UInt8 ε) (producer : Option (Except ε Unit))
    (start stop : ℕ) : Except (StreamError ε) (NativeNarRangeReader ε) :=
  match (validateDeliveryRange start stop expected.size : Except (StreamError ε) Unit) with
  | .error error => .error error
  | .ok () => .ok ⟨.new expected pipe producer, start, stop, 0, .serving⟩

variable (sha256 : Bytes → Digest)

/-- Every round skips a byte at least, so that the distance to the target is enough rounds. -/
def discardUntil (target : ℕ) : ℕ → NativeNarRangeReader ε →
    Except (StreamError ε) Unit × NativeNarRangeReader ε
  | 0, reader => (.ok (), reader)
  | rounds + 1, reader =>
    if reader.position < target then
      match reader.source.read sha256 (min discardBufferSize (target - reader.position)) with
      | (.error error, source) => (.error error, { reader with source })
      | (.ok bytes, source) =>
        if bytes.length = 0 then (.error .endedWhileSkipping, { reader with source })
        else
          discardUntil target rounds
            { reader with source, position := reader.position + bytes.length }
    else (.ok (), reader)

/-- Every round but the last skips a byte at least. -/
def discardUntilEnd : ℕ → NativeNarRangeReader ε →
    Except (StreamError ε) Unit × NativeNarRangeReader ε
  | 0, reader => (.ok (), reader)
  | rounds + 1, reader =>
    match reader.source.read sha256 discardBufferSize with
    | (.error error, source) => (.error error, { reader with source })
    | (.ok bytes, source) =>
      if bytes.length = 0 then (.ok (), { reader with source })
      else
        discardUntilEnd rounds { reader with source, position := reader.position + bytes.length }

def finishRange (reader : NativeNarRangeReader ε) :
    Except (StreamError ε) Unit × NativeNarRangeReader ε :=
  match reader.discardUntilEnd sha256 (reader.source.remaining + 1) with
  | (.ok (), reader) => (.ok (), { reader with state := .complete })
  | (.error error, reader) => (.error error, { reader with state := .failed })

/-- Hand out bytes after the rest of the NAR was checked, or the error instead of them. -/
def finishWith (reader : NativeNarRangeReader ε) (bytes : Bytes) :
    Except (StreamError ε) Bytes × NativeNarRangeReader ε :=
  match reader.finishRange sha256 with
  | (.ok (), reader) => (.ok bytes, reader)
  | (.error error, reader) => (.error error, reader)

def readServingRange (reader : NativeNarRangeReader ε) (capacity : ℕ) :
    Except (StreamError ε) Bytes × NativeNarRangeReader ε :=
  match reader.discardUntil sha256 reader.start (reader.start - reader.position) with
  | (.error error, reader) => (.error error, reader)
  | (.ok (), reader) =>
    if reader.position = reader.stop then reader.finishWith sha256 []
    else
      match reader.source.read sha256 (min capacity (reader.stop - reader.position)) with
      | (.error error, source) => (.error error, { reader with source })
      | (.ok bytes, source) =>
        if reader.position + bytes.length = reader.stop then
          { reader with source, position := reader.position + bytes.length }.finishWith sha256 bytes
        else (.ok bytes, { reader with source, position := reader.position + bytes.length })

def read (reader : NativeNarRangeReader ε) (capacity : ℕ) :
    Except (StreamError ε) Bytes × NativeNarRangeReader ε :=
  if capacity = 0 then (.ok [], reader)
  else
    match reader.state with
    | .serving => reader.readServingRange sha256 capacity
    | .complete => (.ok [], reader)
    | .failed => (.error .failedRange, reader)

def reads : List ℕ → NativeNarRangeReader ε → List (ℕ × Except (StreamError ε) Bytes)
  | [], _ => []
  | capacity :: capacities, reader =>
    (capacity, (reader.read sha256 capacity).1) ::
      reads capacities (reader.read sha256 capacity).2

end NativeNarRangeReader

/-- What the producer wrote is what was declared, and the producer reported success. -/
structure Verified (sha256 : Bytes → Digest) (expected : NarIdentity) (data : Bytes)
    (producer : Option (Except ε Unit)) : Prop where
  size : data.length = expected.size
  hash : sha256 data = expected.hash
  success : producer = some (.ok ())

variable {sha256 : Bytes → Digest} {expected : NarIdentity} {data : Bytes}
  {producer : Option (Except ε Unit)} {capacity position : ℕ}

/-- A stream of which that many bytes have been handed out. -/
inductive StreamAt (sha256 : Bytes → Digest) (expected : NarIdentity) (data : Bytes)
    (producer : Option (Except ε Unit)) : StreamState ε → ℕ → Prop where
  | streaming {digest : Bytes} {reader : Source UInt8 ε} {limit : ℕ}
      (hdata : data = digest ++ reader.data) (hlimit : digest.length + limit = expected.size) :
      StreamAt sha256 expected data producer
        (.streaming ⟨reader, limit, producer, expected, digest⟩) digest.length
  | complete (hverified : Verified sha256 expected data producer) :
      StreamAt sha256 expected data producer .complete expected.size

/-- What a read into a buffer that is not empty can do. -/
inductive Reading (sha256 : Bytes → Digest) (expected : NarIdentity) (data : Bytes)
    (producer : Option (Except ε Unit)) (capacity position : ℕ) :
    Except (StreamError ε) Bytes × StreamState ε → Prop where
  | failed (error : StreamError ε) :
      Reading sha256 expected data producer capacity position (.error error, .failed)
  | bytes {bytes : Bytes} {next : StreamState ε} (hroom : bytes.length ≤ capacity)
      (hbytes : bytes <+: data.drop position)
      (hnext : StreamAt sha256 expected data producer next (position + bytes.length))
      (hend : bytes = [] → next = .complete) :
      Reading sha256 expected data producer capacity position (.ok bytes, next)

theorem waitForProducerCompletion_ok (h : waitForProducerCompletion producer = .ok ()) :
    producer = some (.ok ()) := by
  cases producer with
  | none => cases h
  | some result =>
    cases result with
    | error error => cases h
    | ok done => rfl

variable {state : StreamState ε} {reader : Source UInt8 ε}

theorem takeRead_ok
    (h : takeRead capacity limit reader = (.ok bytes, rest)) :
    reader.data = bytes ++ rest.data ∧ bytes.length ≤ min capacity limit := by
  unfold takeRead at h
  split at h
  · cases h
    exact ⟨rfl, Nat.zero_le _⟩
  · obtain ⟨hd, hr, -⟩ := readUninterrupted_ok h
    exact ⟨hd, hr⟩

theorem verify_ok (hd : data = digest ++ reader.data)
    (hl : digest.length = expected.size)
    (h : ReceivingStream.verifyIdentityAndProducerCompletion sha256 ⟨reader, 0, producer, expected,
      digest⟩ = .ok ()) : Verified sha256 expected data producer := by
  unfold ReceivingStream.verifyIdentityAndProducerCompletion at h
  simp only at h
  split at h
  · cases h
  · rename_i hh
    split at h
    · cases h
    · rename_i bytes hr
      split at h
      · cases h
      · rename_i ho
        have hn := length_eq_zero_iff.1 (not_not.1 ho)
        obtain ⟨-, -, he⟩ := readUninterrupted_ok (Prod.ext hr rfl)
        have hs := (he hn).resolve_right Nat.one_ne_zero
        rw [hs, append_nil] at hd
        rw [hd]
        exact ⟨hl, not_not.1 hh, waitForProducerCompletion_ok h⟩

theorem StreamAt.remaining_add (h : StreamAt sha256 expected data producer state position) :
    state.remaining + position = expected.size := by
  cases h with
  | streaming hd hl =>
    simp only [StreamState.remaining]
    omega
  | complete hv => exact Nat.zero_add _

theorem StreamAt.verified (h : StreamAt sha256 expected data producer state position)
    (hs : state = .complete) : Verified sha256 expected data producer := by
  cases h with
  | streaming hd hl => cases hs
  | complete hv => exact hv

section Chunk

variable {digest bytes : Bytes} {reader : Source UInt8 ε} {limit : ℕ}

theorem readChunk_ok
    (h : ReceivingStream.readChunk ⟨reader, limit, producer, expected, digest⟩ capacity =
      .ok (stream, bytes)) :
    ∃ rest, stream = ⟨rest, limit - bytes.length, producer, expected, digest ++ bytes⟩ ∧
      reader.data = bytes ++ rest.data ∧ bytes.length ≤ min capacity limit ∧
      (bytes = [] → limit = 0) := by
  unfold ReceivingStream.readChunk at h
  cases ht : takeRead capacity limit reader with
  | mk result rest =>
    cases result with
    | error error =>
      simp only [ht] at h
      cases h
    | ok chunk =>
      obtain ⟨hr, ho⟩ := takeRead_ok ht
      simp only [ht] at h
      split at h
      · split at h <;> cases h
      · rename_i hs
        cases h
        refine ⟨rest, rfl, hr, ho, ?_⟩
        rintro rfl
        by_contra hl
        exact hs ⟨rfl, hl⟩

theorem readAndVerifyCompletion_ok {next} (hd : data = digest ++ reader.data)
    (hi : digest.length + limit = expected.size)
    (h : ReceivingStream.readAndVerifyCompletion sha256 ⟨reader, limit, producer, expected, digest⟩
      capacity = .ok (next, bytes)) :
    Reading sha256 expected data producer capacity digest.length (.ok bytes, next) := by
  unfold ReceivingStream.readAndVerifyCompletion at h
  split at h
  · cases h
  · rename_i stream chunk hh
    obtain ⟨rest, rfl, hr, ho, he⟩ := readChunk_ok hh
    have hw : data = (digest ++ chunk) ++ rest.data := by
      rw [hd, hr, append_assoc]
    have hf : chunk <+: data.drop digest.length := by
      rw [hw, append_assoc, drop_left]
      exact prefix_append _ _
    have hl : (digest ++ chunk).length = digest.length + chunk.length := length_append
    simp only at h
    split at h
    · rename_i hz
      have hs : (digest ++ chunk).length = expected.size := by omega
      split at h
      · cases h
      · rename_i hv
        cases h
        rw [hz] at hv
        have hc := StreamAt.complete (verify_ok hw hs hv)
        rw [← hs, hl] at hc
        exact .bytes (by omega) hf hc fun _ => rfl
    · rename_i hp
      cases h
      have ht : StreamAt sha256 expected data producer
          (.streaming ⟨rest, limit - bytes.length, producer, expected, digest ++ bytes⟩)
          (digest ++ bytes).length := .streaming hw (by omega)
      rw [hl] at ht
      refine .bytes (by omega) hf ht ?_
      intro hn
      have hz := he hn
      omega

end Chunk

theorem read_reading (hc : capacity ≠ 0) (h : StreamAt sha256 expected data producer state position) :
    Reading sha256 expected data producer capacity position (state.read sha256 capacity) := by
  rw [StreamState.read, if_neg hc]
  cases h with
  | complete hv =>
    exact .bytes (Nat.zero_le _) nil_prefix (.complete hv) fun _ => rfl
  | @streaming digest reader limit hd hl =>
    rw [StreamState.readAndVerifyCompletion]
    cases hr : ReceivingStream.readAndVerifyCompletion sha256
      ⟨reader, limit, producer, expected, digest⟩ capacity with
    | error error => exact .failed error
    | ok result => exact readAndVerifyCompletion_ok hd hl hr

theorem read_failed (hc : capacity ≠ 0) :
    (StreamState.failed : StreamState ε).read sha256 capacity = (.error .failedStream, .failed) := by
  rw [StreamState.read, if_neg hc]
  rfl

namespace NativeNarRangeReader

theorem discardBufferSize_ne_zero : discardBufferSize ≠ 0 := by decide

/-- Skipping fails the stream before the target, or comes to the target. -/
inductive Skipping (sha256 : Bytes → Digest) (expected : NarIdentity) (data : Bytes)
    (producer : Option (Except ε Unit)) (target : ℕ) (reader : NativeNarRangeReader ε) :
    Except (StreamError ε) Unit × NativeNarRangeReader ε → Prop where
  | failed (error : StreamError ε) {position : ℕ} (hbefore : position < target) :
      Skipping sha256 expected data producer target reader
        (.error error, { reader with source := .failed, position })
  | reached {source : StreamState ε}
      (hsource : StreamAt sha256 expected data producer source (max reader.position target)) :
      Skipping sha256 expected data producer target reader
        (.ok (), { reader with source, position := max reader.position target })

variable {reader : NativeNarRangeReader ε} {start stop target rounds : ℕ}

theorem Skipping.there (ht : target ≤ reader.position)
    (ho : StreamAt sha256 expected data producer reader.source reader.position) :
    Skipping sha256 expected data producer target reader (.ok (), reader) := by
  have hm : max reader.position target = reader.position := by omega
  have hr : StreamAt sha256 expected data producer reader.source
      (max reader.position target) := by rwa [hm]
  have hs := Skipping.reached hr
  rwa [hm] at hs

theorem Skipping.further {next}
    (hf : reader.position ≤ moved) (ho : moved ≤ target)
    (h : Skipping sha256 expected data producer target
      { reader with source := next, position := moved } result) :
    Skipping sha256 expected data producer target reader result := by
  have hm : max moved target = max reader.position target := by omega
  cases h with
  | failed error hb => exact .failed error hb
  | @reached source hs =>
    simp only [hm] at hs ⊢
    exact .reached hs

theorem discardUntil_skipping (ht : target ≤ expected.size)
    (hs : StreamAt sha256 expected data producer reader.source reader.position)
    (hu : target ≤ reader.position + rounds) :
    Skipping sha256 expected data producer target reader
      (reader.discardUntil sha256 target rounds) := by
  induction rounds generalizing reader with
  | zero => exact .there (by omega) hs
  | succ rounds ih =>
    unfold discardUntil
    by_cases hb : reader.position < target
    · rw [if_pos hb]
      have hc : min discardBufferSize (target - reader.position) ≠ 0 := by
        have := discardBufferSize_ne_zero
        omega
      have hr := read_reading hc hs
      generalize reader.source.read sha256 _ = result at hr ⊢
      cases hr with
      | failed error => exact .failed error hb
      | @bytes bytes next ho hy hn he =>
        simp only
        by_cases hz : bytes.length = 0
        · -- only the complete stream hands out nothing, and it is past every target
          have hm := hn.remaining_add
          rw [he (length_eq_zero_iff.1 hz), StreamState.remaining] at hm
          omega
        · rw [if_neg hz]
          refine .further (Nat.le_add_right _ _) (by omega) (ih hn ?_)
          simp only
          omega
    · rw [if_neg hb]
      exact .there (Nat.not_lt.1 hb) hs

theorem discardUntilEnd_ok {after}
    (hs : StreamAt sha256 expected data producer reader.source reader.position)
    (hu : reader.source.remaining < rounds)
    (h : reader.discardUntilEnd sha256 rounds = (.ok (), after)) :
    Verified sha256 expected data producer := by
  induction rounds generalizing reader with
  | zero => omega
  | succ rounds ih =>
    unfold discardUntilEnd at h
    have hr := read_reading discardBufferSize_ne_zero hs
    generalize reader.source.read sha256 _ = result at hr h
    cases hr with
    | failed error => cases h
    | @bytes bytes next ho hy hn he =>
      simp only at h
      by_cases hz : bytes.length = 0
      · exact hn.verified (he (length_eq_zero_iff.1 hz))
      · rw [if_neg hz] at h
        have hl := hn.remaining_add
        have hb := hs.remaining_add
        exact @ih { reader with source := next, position := reader.position + bytes.length } hn
          (by simp only; omega) h

theorem finishRange_spec
    (hs : StreamAt sha256 expected data producer reader.source reader.position) :
    (∃ after, reader.finishRange sha256 = (.ok (), after) ∧ after.state = .complete ∧
        Verified sha256 expected data producer) ∨
      ∃ error after, reader.finishRange sha256 = (.error error, after) ∧ after.state = .failed := by
  unfold finishRange
  cases hd : reader.discardUntilEnd sha256 (reader.source.remaining + 1) with
  | mk result after =>
    cases result with
    | ok done =>
      exact .inl ⟨_, rfl, rfl, discardUntilEnd_ok hs (Nat.lt_succ_self _) hd⟩
    | error error => exact .inr ⟨error, _, rfl, rfl⟩

/-- A reader whose reads fail from now on. -/
def Stopped (reader : NativeNarRangeReader ε) : Prop :=
  reader.state = .failed ∨
    (reader.state = .serving ∧ reader.source = .failed ∧ reader.position < reader.stop)

/-- What the reader of a range has handed out. -/
inductive Progress (sha256 : Bytes → Digest) (expected : NarIdentity) (data : Bytes)
    (producer : Option (Except ε Unit)) (start stop : ℕ) (handed : Bytes) :
    NativeNarRangeReader ε → Prop where
  | serving {source : StreamState ε} {position : ℕ}
      (hsource : StreamAt sha256 expected data producer source position)
      (hposition : position ≤ start ∨ position < stop) (hlength : handed.length = position - start) :
      Progress sha256 expected data producer start stop handed
        ⟨source, start, stop, position, .serving⟩
  | complete {reader : NativeNarRangeReader ε} (hstate : reader.state = .complete)
      (hlength : handed.length ≤ stop - start)
      (hverified : Verified sha256 expected data producer) :
      Progress sha256 expected data producer start stop handed reader
  | stopped {reader : NativeNarRangeReader ε} (hstopped : Stopped reader)
      (hlength : handed.length < stop - start ∨ handed = []) :
      Progress sha256 expected data producer start stop handed reader

/-- What a read of the range does. -/
inductive Delivering (sha256 : Bytes → Digest) (expected : NarIdentity) (data : Bytes)
    (producer : Option (Except ε Unit)) (start stop capacity : ℕ) (handed : Bytes) :
    Except (StreamError ε) Bytes × NativeNarRangeReader ε → Prop where
  | bytes {bytes : Bytes} {after : NativeNarRangeReader ε}
      (hbytes : bytes <+: data.drop (start + handed.length))
      (hend : bytes = [] → capacity ≠ 0 → Verified sha256 expected data producer)
      (hafter : Progress sha256 expected data producer start stop (handed ++ bytes) after) :
      Delivering sha256 expected data producer start stop capacity handed (.ok bytes, after)
  | failed {error : StreamError ε} {after : NativeNarRangeReader ε} (hstopped : Stopped after)
      (hlength : handed.length < stop - start ∨ handed = []) :
      Delivering sha256 expected data producer start stop capacity handed (.error error, after)

variable {handed bytes : Bytes} {source : StreamState ε}

theorem discardUntil_failed (hs : source = .failed) (hb : position < target) (hr : rounds ≠ 0) :
    discardUntil sha256 target rounds ⟨source, start, stop, position, .serving⟩ =
      (.error .failedStream, ⟨.failed, start, stop, position, .serving⟩) := by
  have hc : min discardBufferSize (target - position) ≠ 0 := by
    have := discardBufferSize_ne_zero
    omega
  obtain ⟨rounds, rfl⟩ := Nat.exists_eq_succ_of_ne_zero hr
  rw [hs, discardUntil, if_pos hb, read_failed hc]

theorem read_stopped (hc : capacity ≠ 0) (h : Stopped reader) :
    ∃ error after, reader.read sha256 capacity = (.error error, after) ∧ Stopped after := by
  obtain ⟨source, start, stop, position, state⟩ := reader
  rw [NativeNarRangeReader.read, if_neg hc]
  rcases h with hs | ⟨hs, ho, hp⟩
  · simp only at hs ⊢
    rw [hs]
    exact ⟨_, _, rfl, .inl rfl⟩
  · simp only at hs ho hp ⊢
    rw [hs, readServingRange]
    by_cases hb : position < start
    · simp only [discardUntil_failed ho hb (Nat.sub_ne_zero_of_lt hb)]
      exact ⟨_, _, rfl, .inr ⟨rfl, rfl, hp⟩⟩
    · have ht := Nat.sub_eq_zero_of_le (Nat.not_lt.1 hb)
      have hr : min capacity (stop - position) ≠ 0 := by omega
      simp only [ht, discardUntil, Nat.ne_of_lt hp, if_false, ho, read_failed hr]
      exact ⟨_, _, rfl, .inr ⟨rfl, rfl, hp⟩⟩

theorem finishWith_delivering (hy : bytes <+: data.drop (start + handed.length))
    (ho : StreamAt sha256 expected data producer reader.source reader.position)
    (hl : handed.length + bytes.length ≤ stop - start)
    (hb : handed.length < stop - start ∨ handed = []) :
    Delivering sha256 expected data producer start stop capacity handed
      (reader.finishWith sha256 bytes) := by
  unfold finishWith
  rcases finishRange_spec ho with
    ⟨after, hf, hs, hv⟩ | ⟨error, after, hf, hs⟩
  · rw [hf]
    refine .bytes hy (fun _ _ => hv) (.complete hs ?_ hv)
    rwa [length_append]
  · rw [hf]
    exact .failed (.inl hs) hb

theorem readServingRange_delivering (hc : capacity ≠ 0) (ho : start ≤ stop)
    (ht : stop ≤ expected.size) (hu : StreamAt sha256 expected data producer source position)
    (hp : position ≤ start ∨ position < stop) (hg : handed.length = position - start) :
    Delivering sha256 expected data producer start stop capacity handed
      (readServingRange sha256 ⟨source, start, stop, position, .serving⟩ capacity) := by
  have hb : handed.length < stop - start ∨ handed = [] := by
    rw [← length_eq_zero_iff]
    omega
  unfold readServingRange
  have hs : Skipping sha256 expected data producer start ⟨source, start, stop, position, .serving⟩
      (discardUntil sha256 start (start - position) ⟨source, start, stop, position, .serving⟩) :=
    discardUntil_skipping (Nat.le_trans ho ht) hu (by simp only; omega)
  generalize discardUntil sha256 _ _ _ = skipped at hs ⊢
  cases hs with
  | failed error hl => exact .failed (.inr ⟨rfl, rfl, Nat.lt_of_lt_of_le hl ho⟩) hb
  | @reached source hr =>
    simp only at hr ⊢
    have hh : start + handed.length = max position start := by omega
    split
    · rename_i he
      exact finishWith_delivering nil_prefix hr (by rw [length_nil]; omega) hb
    · rename_i hw
      have hm : min capacity (stop - max position start) ≠ 0 := by omega
      have ha := read_reading hm hr
      generalize source.read sha256 _ = result at ha ⊢
      cases ha with
      | failed error => exact .failed (.inr ⟨rfl, rfl, by simp only; omega⟩) hb
      | @bytes bytes next hle hy hn he =>
        rw [← hh] at hy
        simp only
        split
        · rename_i hre
          exact finishWith_delivering hy hn (by omega) hb
        · rename_i hmo
          refine .bytes hy ?_ (.serving hn (.inr (by omega)) ?_)
          · intro hi _
            exact hn.verified (he hi)
          · rw [length_append]
            omega

theorem read_delivering (ho : start ≤ stop) (ht : stop ≤ expected.size)
    (h : Progress sha256 expected data producer start stop handed reader) (capacity : ℕ) :
    Delivering sha256 expected data producer start stop capacity handed
      (reader.read sha256 capacity) := by
  by_cases hc : capacity = 0
  · rw [NativeNarRangeReader.read, if_pos hc]
    refine .bytes nil_prefix (fun _ hne => absurd hc hne) ?_
    rwa [append_nil]
  · cases h with
    | serving hu hp hl =>
      rw [NativeNarRangeReader.read, if_neg hc]
      exact readServingRange_delivering hc ho ht hu hp hl
    | complete hs hl hv =>
      rw [NativeNarRangeReader.read, if_neg hc, hs]
      refine .bytes nil_prefix (fun _ _ => hv) ?_
      rw [append_nil]
      exact .complete hs hl hv
    | stopped hst hl =>
      obtain ⟨error, after, hr, ha⟩ := read_stopped hc hst
      rw [hr]
      exact .failed ha hl

def handedOut (outcomes : List (ℕ × Except (StreamError ε) Bytes)) : Bytes :=
  outcomes.flatMap fun outcome => outcome.2.toOption.getD []

/-- A read into a buffer that is not empty returned an error. -/
def Refused (outcome : ℕ × Except (StreamError ε) Bytes) : Prop :=
  outcome.1 ≠ 0 → outcome.2.toOption = none

theorem reads_stopped (h : Stopped reader) :
    ∀ outcome ∈ reader.reads sha256 capacities, Refused outcome := by
  induction capacities generalizing reader with
  | nil => exact fun _ hm => absurd hm not_mem_nil
  | cons capacity capacities ih =>
    by_cases hc : capacity = 0
    · have hr : reader.read sha256 capacity = (.ok [], reader) := if_pos hc
      rw [reads, hr]
      intro outcome hm
      rcases mem_cons.1 hm with rfl | hl
      · exact fun hne => absurd hc hne
      · exact ih h outcome hl
    · obtain ⟨error, after, hr, ha⟩ := read_stopped hc h
      rw [reads, hr]
      intro outcome hm
      rcases mem_cons.1 hm with rfl | hl
      · exact fun _ => rfl
      · exact ih ha outcome hl

theorem prefix_append_drop (hh : handed <+: whole)
    (hb : bytes <+: whole.drop handed.length) : handed ++ bytes <+: whole := by
  obtain ⟨rest, rfl⟩ := hh
  rw [drop_left] at hb
  exact (prefix_append_right_inj _).2 hb

theorem Progress.length_le (h : Progress sha256 expected data producer start stop handed reader) :
    handed.length ≤ stop - start := by
  cases h with
  | serving hs hp hl => omega
  | complete ht hl hv => exact hl
  | stopped ho hl =>
    rw [← length_eq_zero_iff] at hl
    omega

theorem Progress.verified (h : Progress sha256 expected data producer start stop handed reader)
    (hne : start < stop) (ha : handed.length = stop - start) :
    Verified sha256 expected data producer := by
  cases h with
  | serving hs hp hl => omega
  | complete ht hl hv => exact hv
  | stopped ho hl =>
    rw [← length_eq_zero_iff] at hl
    omega

/-- What holds of all reads together, after some bytes were handed out before. -/
structure Delivered (sha256 : Bytes → Digest) (expected : NarIdentity) (data : Bytes)
    (producer : Option (Except ε Unit)) (start stop : ℕ) (handed : Bytes)
    (outcomes : List (ℕ × Except (StreamError ε) Bytes)) : Prop where
  front : handed ++ handedOut outcomes <+: (data.drop start).take (stop - start)
  last : start < stop → (handed ++ handedOut outcomes).length = stop - start →
    Verified sha256 expected data producer
  cleanEnd : ∀ capacity, (capacity, .ok []) ∈ outcomes → capacity ≠ 0 →
    Verified sha256 expected data producer
  afterError : outcomes.Pairwise fun earlier later => earlier.2.toOption = none → Refused later

theorem reads_delivered (hd : start ≤ stop) (hp : stop ≤ expected.size)
    (h : Progress sha256 expected data producer start stop handed reader)
    (hh : handed <+: data.drop start) (capacities : List ℕ) :
    Delivered sha256 expected data producer start stop handed (reader.reads sha256 capacities) := by
  induction capacities generalizing reader handed with
  | nil =>
    rw [reads]
    refine ⟨?_, ?_, fun _ hm => absurd hm not_mem_nil, List.Pairwise.nil⟩
    · rw [handedOut, flatMap_nil, append_nil]
      exact prefix_take_iff.2 ⟨hh, h.length_le⟩
    · rw [handedOut, flatMap_nil, append_nil]
      exact h.verified
  | cons capacity capacities ih =>
    have hr := read_delivering hd hp h capacity
    rw [reads]
    generalize reader.read sha256 capacity = result at hr ⊢
    cases hr with
    | @bytes bytes after hb he hf =>
      rw [← drop_drop] at hb
      have hl := ih hf (prefix_append_drop hh hb)
      have ha : handed ++ handedOut ((capacity, .ok bytes) :: reads sha256 capacities after) =
          handed ++ bytes ++ handedOut (reads sha256 capacities after) := by
        rw [append_assoc]
        rfl
      refine ⟨by rw [ha]; exact hl.front, by rw [ha]; exact hl.last, ?_,
        pairwise_cons.2 ⟨?_, hl.afterError⟩⟩
      · intro size hm hs
        rcases mem_cons.1 hm with heq | hm
        · cases heq
          exact he rfl hs
        · exact hl.cleanEnd size hm hs
      · intro _ _ ho
        cases ho
    | @failed error after ht hn =>
      have hl := ih (.stopped ht hn) hh
      refine ⟨hl.front, hl.last, ?_, pairwise_cons.2 ⟨?_, hl.afterError⟩⟩
      · intro size hm hs
        rcases mem_cons.1 hm with heq | hm
        · cases heq
        · exact hl.cleanEnd size hm hs
      · intro outcome hm _
        exact reads_stopped ht outcome hm

/-- Every range within the declared size has a reader. Whatever the producer does and however the
pipe is read, the bytes handed out are the first ones of the range, the last byte and a clean end
come only after everything was verified, and no read succeeds after an error. -/
theorem verified_delivery (sha256 : Bytes → Digest) (expected : NarIdentity)
    (pipe : Source UInt8 ε) (producer : Option (Except ε Unit)) {start stop : ℕ}
    (hordered : start ≤ stop) (hstop : stop ≤ expected.size) :
    ∃ reader, NativeNarRangeReader.new expected pipe producer start stop = .ok reader ∧
      ∀ capacities,
        handedOut (reader.reads sha256 capacities) <+: (pipe.data.drop start).take (stop - start) ∧
        (start < stop → (handedOut (reader.reads sha256 capacities)).length = stop - start →
          Verified sha256 expected pipe.data producer) ∧
        (∀ capacity, (capacity, .ok []) ∈ reader.reads sha256 capacities → capacity ≠ 0 →
          Verified sha256 expected pipe.data producer) ∧
        (reader.reads sha256 capacities).Pairwise fun earlier later =>
          earlier.2.toOption = none → Refused later := by
  refine ⟨⟨.new expected pipe producer, start, stop, 0, .serving⟩, ?_, ?_⟩
  · rw [NativeNarRangeReader.new, validateDeliveryRange, if_pos ⟨hordered, hstop⟩]
  · intro capacities
    have hs : StreamAt sha256 expected pipe.data producer (.new expected pipe producer) 0 :=
      .streaming (nil_append _).symm (Nat.zero_add _)
    have hp : Progress sha256 expected pipe.data producer start stop []
        ⟨.new expected pipe producer, start, stop, 0, .serving⟩ :=
      .serving hs (.inl (Nat.zero_le _)) (Nat.zero_sub _).symm
    have hd := reads_delivered hordered hstop hp nil_prefix capacities
    exact ⟨hd.front, hd.last, hd.cleanEnd, hd.afterError⟩

/-- SHA-256 on five bytes, and another digest for everything else. -/
def fiveBytesSha256 (bytes : Bytes) : Digest :=
  if bytes = [1, 2, 3, 4, 5] then
    .ofNat 0x74f81fe167d99b4cb41d6d0ccda82278caee9f3e2f25d5e5a3936ff3dcec60d0
  else .ofNat 0

def fiveBytesIdentity : NarIdentity := ⟨fiveBytesSha256 [1, 2, 3, 4, 5], 5⟩

def fiveBytesPipe : Source UInt8 Unit :=
  ⟨[1, 2, 3, 4, 5], [.interrupted, .upTo 2, .interrupted, .upTo 1]⟩

theorem fiveBytes_delivered :
    ∃ reader, NativeNarRangeReader.new fiveBytesIdentity fiveBytesPipe (some (.ok ())) 1 4 =
        .ok reader ∧
      handedOut (reader.reads fiveBytesSha256 [0, 2, 2, 4, 1]) = [2, 3, 4] ∧
      Verified fiveBytesSha256 fiveBytesIdentity fiveBytesPipe.data
        (some (.ok () : Except Unit Unit)) := by
  obtain ⟨reader, hn, he⟩ := verified_delivery fiveBytesSha256 fiveBytesIdentity
    fiveBytesPipe (some (.ok ())) (by decide : 1 ≤ 4) (by decide)
  have hr := (Except.ok.inj hn).symm
  have hh : handedOut (reader.reads fiveBytesSha256 [0, 2, 2, 4, 1]) = [2, 3, 4] := by
    rw [hr]
    decide +kernel
  obtain ⟨-, hl, -⟩ := he [0, 2, 2, 4, 1]
  exact ⟨reader, hn, hh, hl (by decide) (by rw [hh]; rfl)⟩

end NativeNarRangeReader

end VerifiedStreams
