import Narjar.NarDecoder
import Narjar.NarEffects

/-!
# What the decoder functions consume

Every decoder function succeeds exactly when the input continues with the bytes of its
effect and the limits leave room for them.
-/
def NarDecoder.Decoder.meter {σ : Type} (d : NarDecoder.Decoder σ) : NarEffects.Meter :=
  ⟨d.rawBytes, d.work, d.entries, d.files, d.symlinks⟩

def NarEffects.Effect.run (e : NarEffects.Effect NarDecoder.Event)
    (d : NarDecoder.Decoder (List NarDecoder.Event)) :
    NarDecoder.Decoder (List NarDecoder.Event) where
  reader := d.reader.drop e.bytes.length
  digest := d.digest ++ e.bytes
  rawBytes := d.rawBytes + e.bytes.length
  work := NarFormat.saturatingAdd d.work e.work
  entries := d.entries + e.entries
  files := NarFormat.saturatingAdd d.files e.files
  symlinks := NarFormat.saturatingAdd d.symlinks e.symlinks
  sink := d.sink ++ e.events d.rawBytes

namespace NarDecoderEffects

open ByteCodecs FallibleState NarFormat NarEffects NarDecoder

/-- The input continues with the bytes of the effect and no limit stands in its way. -/
structure Admits (L : Limits) (d : Decoder (List Event)) (e : Effect Event) : Prop where
  input : e.bytes <+: d.reader
  room : HasRoom L d.meter e

variable {L : Limits} {d d' : Decoder (List Event)}

variable {u : Unit} {n : ℕ} {b s : Bytes}

private theorem append_isPrefix : a ++ b <+: c ↔ a <+: c ∧ b <+: c.drop a.length := by
  constructor
  · rintro ⟨t, rfl⟩
    simp [List.append_assoc]
  · rintro ⟨⟨t, rfl⟩, h⟩
    simpa using h

theorem admits_append : Admits L d (e ++ f) ↔ Admits L d e ∧ Admits L (e.run d) f := by
  constructor
  · rintro ⟨input, room⟩
    rw [append_bytes, append_isPrefix] at input
    rw [hasRoom_append] at room
    exact ⟨⟨input.1, room.1⟩, ⟨input.2, room.2⟩⟩
  · rintro ⟨he, hf⟩
    exact ⟨append_isPrefix.2 ⟨he.input, hf.input⟩, hasRoom_append.2 ⟨he.room, hf.room⟩⟩

theorem run_append (e f : Effect Event) : (e ++ f).run d = f.run (e.run d) := by
  simp only [Effect.run, append_bytes, append_work, append_entries, append_files, append_symlinks,
    append_events, saturatingAdd_add, List.length_append, List.drop_drop, List.append_assoc,
    Nat.add_assoc]

@[simp] theorem run_text_nil : (text []).run d = d := by
  simp [Effect.run, text]

theorem admits_text :
    Admits L d (text b) ↔
      b <+: d.reader ∧ (b ≠ [] → d.rawBytes + b.length ≤ L.maxTotalBytes.toNat) := by
  constructor
  · intro h
    exact ⟨h.input, hasRoom_text.1 h.room⟩
  · rintro ⟨input, total⟩
    exact ⟨input, hasRoom_text.2 total⟩

theorem checkedRawByteCount_ok :
    (checkedRawByteCount L rawBytes requested : Except (DecodeError Empty) ℕ) = .ok next ↔
      rawBytes + requested ≤ L.maxTotalBytes.toNat ∧ next = rawBytes + requested := by
  have hm := limit_le_u64Max L.maxTotalBytes
  unfold checkedRawByteCount
  cases h : checkedAdd rawBytes requested with
  | none =>
    have : ¬ rawBytes + requested ≤ u64Max := by
      intro hle
      simp [checkedAdd, hle] at h
    simp only [reduceCtorEq, false_iff]
    omega
  | some n =>
    obtain ⟨-, rfl⟩ := checkedAdd_eq_some.1 h
    simp only
    split
    · simp only [reduceCtorEq, false_iff]
      omega
    · simp only [Except.ok.injEq]
      omega

theorem readRaw_ok :
    (readRaw L n : DecodeM _ Empty _) d = .ok (b, d') ↔
      b.length = n ∧ d.rawBytes + n ≤ L.maxTotalBytes.toNat ∧ b <+: d.reader ∧
        d' = (text b).run d := by
  unfold readRaw
  cases h : (checkedRawByteCount L d.rawBytes n : Except (DecodeError Empty) ℕ) with
  | error e =>
    have : ¬ d.rawBytes + n ≤ L.maxTotalBytes.toNat := by
      intro hle
      simp [checkedRawByteCount_ok.2 ⟨hle, rfl⟩] at h
    simp only [reduceCtorEq, false_iff]
    tauto
  | ok next =>
    obtain ⟨hle, rfl⟩ := checkedRawByteCount_ok.1 h
    simp only
    split
    · rename_i hs
      simp only [reduceCtorEq, false_iff]
      rintro ⟨hl, -, hp, -⟩
      have := hp.length_le
      omega
    · rename_i ho
      have hn : n ≤ d.reader.length := by omega
      simp only [Except.ok.injEq, Prod.mk.injEq]
      constructor
      · rintro ⟨rfl, rfl⟩
        simp [hn, hle, List.take_prefix, Effect.run, text]
      · rintro ⟨rfl, -, hp, rfl⟩
        have hb := List.prefix_iff_eq_take.1 hp
        rw [← hb]
        simp [Effect.run, text]

theorem checkRoom_ok :
    (checkRoom L n : DecodeM _ Empty _) d = .ok (u, d') ↔
      d.rawBytes + n ≤ L.maxTotalBytes.toNat ∧ d' = d := by
  unfold checkRoom
  cases h : (checkedRawByteCount L d.rawBytes n : Except (DecodeError Empty) ℕ) with
  | error e =>
    have : ¬ d.rawBytes + n ≤ L.maxTotalBytes.toNat := by
      intro hle
      simp [checkedRawByteCount_ok.2 ⟨hle, rfl⟩] at h
    simp [this]
  | ok next =>
    obtain ⟨hle, rfl⟩ := checkedRawByteCount_ok.1 h
    simp [hle, eq_comm]

theorem bumpWork_ok :
    (bumpWork L : DecodeM _ Empty _) d = .ok (u, d') ↔ Admits L d tick ∧ d' = tick.run d := by
  have ha : Admits L d tick ↔ saturatingAdd d.work 1 ≤ L.maxWork.toNat :=
    ⟨fun h => hasRoom_tick.1 h.room, fun h => ⟨List.nil_prefix, hasRoom_tick.2 h⟩⟩
  rw [ha]
  unfold bumpWork
  simp only
  split
  · simp only [reduceCtorEq, false_iff]
    omega
  · rename_i h
    simp [Effect.run, tick, Nat.le_of_not_lt h, eq_comm]

theorem countEntry_ok :
    (countEntry L : DecodeM _ Empty _) d = .ok (u, d') ↔
      Admits L d oneEntry ∧ d' = oneEntry.run d := by
  have hm := limit_le_u64Max L.maxEntries
  have ha : Admits L d oneEntry ↔ d.entries + 1 ≤ L.maxEntries.toNat :=
    ⟨fun h => hasRoom_oneEntry.1 h.room, fun h => ⟨List.nil_prefix, hasRoom_oneEntry.2 h⟩⟩
  rw [ha]
  unfold countEntry
  cases h : checkedAdd d.entries 1 with
  | none =>
    have : ¬ d.entries + 1 ≤ u64Max := by
      intro hle
      simp [checkedAdd, hle] at h
    simp only [reduceCtorEq, false_iff]
    omega
  | some n =>
    obtain ⟨-, rfl⟩ := checkedAdd_eq_some.1 h
    simp only
    split
    · simp only [reduceCtorEq, false_iff]
      omega
    · rename_i hle
      simp [Effect.run, oneEntry, Nat.le_of_not_lt hle, eq_comm]

@[simp] theorem admits_event (e : Event) : Admits L d (event e) :=
  ⟨List.nil_prefix, hasRoom_event e⟩
@[simp] theorem admits_eventAt (e : ℕ → Event) : Admits L d (eventAt e) :=
  ⟨List.nil_prefix, hasRoom_eventAt e⟩
@[simp] theorem admits_oneFile : Admits L d oneFile := ⟨List.nil_prefix, hasRoom_oneFile⟩
@[simp] theorem admits_oneSymlink : Admits L d oneSymlink :=
  ⟨List.nil_prefix, hasRoom_oneSymlink⟩

theorem emit_ok : emit collect e d = .ok (u, d') ↔ d' = (event e).run d := by
  simp [emit, collect, Effect.run, event, eq_comm]

theorem countFile_ok : (countFile : DecodeM _ Empty _) d = .ok (u, d') ↔ d' = oneFile.run d := by
  simp [countFile, Effect.run, oneFile, eq_comm]

theorem countSymlink_ok :
    (countSymlink : DecodeM _ Empty _) d = .ok (u, d') ↔ d' = oneSymlink.run d := by
  simp [countSymlink, Effect.run, oneSymlink, eq_comm]

theorem readU64_ok :
    (readU64 L : DecodeM _ Empty _) d = .ok (n, d') ↔
      n ≤ u64Max ∧ Admits L d (text (leBytes 8 n)) ∧ d' = (text (leBytes 8 n)).run d := by
  simp only [readU64, bind_ok, readRaw_ok, pure_ok, admits_text]
  constructor
  · rintro ⟨b, t, ⟨hl, hr, hp, rfl⟩, rfl, rfl⟩
    have hlt := leValue_lt b
    have hb := leBytes_leValue b
    rw [hl] at hlt hb
    rw [hb, hl]
    refine ⟨?_, ⟨hp, fun _ => hr⟩, rfl⟩
    unfold u64Max
    omega
  · rintro ⟨hn, ⟨hp, hr⟩, rfl⟩
    have hl := length_leBytes 8 n
    rw [hl] at hr
    refine ⟨leBytes 8 n, _, ⟨hl, hr ?_, hp, rfl⟩, ?_, rfl⟩
    · intro h
      simp [h] at hl
    · refine (leValue_leBytes 8 n ?_).symm
      unfold u64Max at hn
      omega

theorem readPadding_ok :
    (readPadding L n : DecodeM _ Empty _) d = .ok (u, d') ↔
      Admits L d (text (padding n)) ∧ d' = (text (padding n)).run d := by
  unfold readPadding
  split
  · rename_i h
    have hp : padding n = [] := by simp [padding, h]
    simp [hp, admits_text]
  · rename_i h
    have hne : padding n ≠ [] := by simp [padding, h]
    simp only [bind_ok, readRaw_ok, ensure_ok, admits_text, length_padding]
    constructor
    · rintro ⟨b, t, ⟨hl, ho, hr, rfl⟩, hz, rfl⟩
      have hb := eq_padding_iff.2 ⟨hl, by simpa using hz⟩
      subst hb
      exact ⟨⟨hr, fun _ => ho⟩, rfl⟩
    · rintro ⟨⟨hr, ho⟩, rfl⟩
      refine ⟨padding n, _, ⟨length_padding n, ho hne, hr, rfl⟩, ?_, rfl⟩
      simp [padding]

theorem readString_ok {max : ℕ} (hm : max ≤ u64Max) :
    (readString L max : DecodeM _ Empty _) d = .ok (s, d') ↔
      s.length ≤ max ∧ Admits L d (text (paddedString s)) ∧ d' = (text (paddedString s)).run d := by
  simp only [readString, readBoundedStringLength, bind_ok, readU64_ok, ensure_ok, checkRoom_ok,
    pure_ok, readRaw_ok, readPadding_ok, paddedString, text_append, admits_append, run_append]
  constructor
  · rintro ⟨n, t, ⟨n', t', ⟨hn, hi, rfl⟩, _, _, ⟨hle, rfl⟩, _, _, ⟨ho, rfl⟩, rfl, rfl⟩,
      b, t, ⟨rfl, hb, hr, rfl⟩, _, _, ⟨ha, rfl⟩, rfl, rfl⟩
    exact ⟨hle, ⟨⟨hi, admits_text.2 ⟨hr, fun _ => hb⟩⟩, ha⟩, rfl⟩
  · rintro ⟨hle, ⟨⟨hi, hb⟩, ha⟩, rfl⟩
    have hh := (admits_text.1 hi).2 (by
      intro h
      simpa using congrArg List.length h)
    obtain ⟨hr, ho⟩ := admits_text.1 hb
    have ht := (admits_text.1 ha).2
    rw [length_leBytes] at hh
    simp only [Effect.run, text, length_leBytes] at ho ht
    have hb' : d.rawBytes + 8 + s.length ≤ L.maxTotalBytes.toNat := by
      by_cases hs : s = []
      · simpa [hs] using hh
      · exact ho hs
    have ha' : d.rawBytes + 8 + s.length + padLength s.length ≤ L.maxTotalBytes.toNat := by
      by_cases hp : padLength s.length = 0
      · simpa [hp] using hb'
      · simpa using ht (by simp [padding, hp])
    refine ⟨s.length, _, ⟨s.length, _, ⟨hle.trans hm, hi, rfl⟩, (), _, ⟨hle, rfl⟩,
      (), _, ⟨?_, rfl⟩, rfl, rfl⟩, s, _, ⟨rfl, ?_, hr, rfl⟩, (), _, ⟨ha, rfl⟩, rfl, rfl⟩
    · simp only [Effect.run, text, length_leBytes, saturatingAdd]
      omega
    · simpa only [Effect.run, text, length_leBytes] using hb'

theorem readControlToken_ok :
    (readControlToken L : DecodeM _ Empty _) d = .ok (s, d') ↔
      s.length ≤ tokenLimit ∧ Admits L d (text (paddedString s)) ∧
        d' = (text (paddedString s)).run d := readString_ok (by decide)

theorem expect_ok (h : s.length ≤ tokenLimit) :
    (expect L s : DecodeM _ Empty _) d = .ok (u, d') ↔
      Admits L d (text (paddedString s)) ∧ d' = (text (paddedString s)).run d := by
  simp only [expect, bind_ok, readControlToken_ok, ensure_ok]
  constructor
  · rintro ⟨_, _, ⟨-, ha, rfl⟩, rfl, rfl⟩
    exact ⟨ha, rfl⟩
  · rintro ⟨ha, rfl⟩
    exact ⟨s, _, ⟨h, ha, rfl⟩, rfl, rfl⟩

def kindToken : RootKind → Bytes
  | .directory => directoryToken
  | .regular => regularToken
  | .symlink => symlinkToken

theorem readNodeKind_ok :
    (readNodeKind L : DecodeM _ Empty _) d = .ok (kind, d') ↔
      Admits L d (text (nodeHeader (kindToken kind))) ∧
        d' = (text (nodeHeader (kindToken kind))).run d := by
  simp only [readNodeKind, bind_ok, expect_ok (show openToken.length ≤ tokenLimit by decide),
    expect_ok (show typeToken.length ≤ tokenLimit by decide), readControlToken_ok, nodeHeader,
    text_append, admits_append, run_append]
  constructor
  · rintro ⟨_, _, ⟨ho, rfl⟩, _, _, ⟨ht, rfl⟩, token, _, ⟨-, hk, rfl⟩, h⟩
    have : token = kindToken kind ∧ d' = (text (paddedString token)).run
        ((text (paddedString typeToken)).run ((text (paddedString openToken)).run d)) := by
      split at h
      · obtain ⟨rfl, rfl⟩ := pure_ok.1 h
        exact ⟨by assumption, rfl⟩
      · split at h
        · obtain ⟨rfl, rfl⟩ := pure_ok.1 h
          exact ⟨by assumption, rfl⟩
        · split at h
          · obtain ⟨rfl, rfl⟩ := pure_ok.1 h
            exact ⟨by assumption, rfl⟩
          · exact absurd h (by simp)
    obtain ⟨rfl, rfl⟩ := this
    exact ⟨⟨⟨ho, ht⟩, hk⟩, rfl⟩
  · rintro ⟨⟨⟨ho, ht⟩, hk⟩, rfl⟩
    refine ⟨(), _, ⟨ho, rfl⟩, (), _, ⟨ht, rfl⟩, kindToken kind, _, ⟨?_, hk, rfl⟩, ?_⟩
    · cases kind <;> decide
    · cases kind
      · rfl
      · rfl
      · rfl

theorem readRegularFileExecutableFlag_ok :
    (readRegularFileExecutableFlag L : DecodeM _ Empty _) d = .ok (executable, d') ↔
      Admits L d (text (executableMarker executable ++ paddedString contentsToken)) ∧
        d' = (text (executableMarker executable ++ paddedString contentsToken)).run d := by
  simp only [readRegularFileExecutableFlag, bind_ok, readControlToken_ok]
  constructor
  · rintro ⟨field, _, ⟨-, hf, rfl⟩, h⟩
    split at h
    · rename_i heq
      subst heq
      obtain ⟨rfl, rfl⟩ := pure_ok.1 h
      exact ⟨hf, rfl⟩
    · simp only [bind_ok, ensure_ok, readControlToken_ok, pure_ok,
        expect_ok (show contentsToken.length ≤ tokenLimit by decide)] at h
      obtain ⟨_, _, ⟨rfl, rfl⟩, marker, _, ⟨-, hm, rfl⟩, _, _, ⟨rfl, rfl⟩, _, _, ⟨hc, rfl⟩,
        rfl, rfl⟩ := h
      simp only [executableMarker, if_true, text_append, admits_append, run_append]
      exact ⟨⟨⟨hf, hm⟩, hc⟩, trivial⟩
  · rintro ⟨ha, rfl⟩
    cases executable with
    | false => exact ⟨contentsToken, _, ⟨by decide, ha, rfl⟩, rfl⟩
    | true =>
      simp only [executableMarker, if_true, text_append, admits_append, run_append] at ha ⊢
      obtain ⟨⟨hf, hm⟩, hc⟩ := ha
      refine ⟨executableToken, _, ⟨by decide, hf, rfl⟩, ?_⟩
      rw [if_neg (by decide)]
      simp only [bind_ok, ensure_ok, readControlToken_ok, pure_ok,
        expect_ok (show contentsToken.length ≤ tokenLimit by decide)]
      exact ⟨(), _, ⟨trivial, rfl⟩, [], _, ⟨by decide, hm, rfl⟩, (), _, ⟨rfl, rfl⟩, (), _,
        ⟨hc, rfl⟩, trivial, rfl⟩

def splitChunks : ℕ → Bytes → List Bytes
  | 0, _ => []
  | count + 1, bytes => bytes.take chunkSize :: splitChunks count (bytes.drop chunkSize)

def fileChunks (contents : Bytes) : List Bytes := splitChunks (chunkCount contents.length) contents

def bodyEffect (contents : Bytes) : Effect Event :=
  { bytes := contents, events := fun _ => (fileChunks contents).map .fileChunk }

theorem chunkCount_succ (h : 0 < r) : chunkCount r = chunkCount (r - chunkSize) + 1 := by
  unfold chunkCount chunkSize
  omega

theorem bodyEffect_cons (h : contents ≠ []) :
    bodyEffect contents =
      text (contents.take chunkSize) ++ event (.fileChunk (contents.take chunkSize)) ++
        bodyEffect (contents.drop chunkSize) := by
  have hc := chunkCount_succ (List.length_pos_of_ne_nil h)
  have hf : fileChunks contents =
      contents.take chunkSize :: fileChunks (contents.drop chunkSize) := by
    simp only [fileChunks, hc, splitChunks, List.length_drop]
  ext1
  · simp [bodyEffect, text, event]
  · rfl
  · rfl
  · rfl
  · rfl
  · funext offset
    simp [bodyEffect, text, event, hf]

theorem bodyEffect_nil : bodyEffect [] = text [] := rfl

theorem streamChunks_ok (size offset count : ℕ) (hc : count = chunkCount (size - offset)) :
    streamChunks L collect size count offset d = .ok (u, d') ↔
      ∃ body, body.length = size - offset ∧ Admits L d (bodyEffect body) ∧
        d' = (bodyEffect body).run d := by
  induction count generalizing d offset with
  | zero =>
    have hz : size - offset = 0 := by
      unfold chunkCount chunkSize at hc
      omega
    simp [streamChunks, hz, bodyEffect_nil, admits_text]
  | succ count ih =>
    have hp : 0 < size - offset := by
      by_contra h
      have : size - offset = 0 := by omega
      simp [this, chunkCount, chunkSize] at hc
    have hn : count = chunkCount (size - (offset + chunkSize)) := by
      rw [chunkCount_succ hp, Nat.sub_sub] at hc
      omega
    simp only [streamChunks, readFileChunk, bind_ok, readRaw_ok, emit_ok, ih (offset + chunkSize) hn]
    constructor
    · rintro ⟨_, _, ⟨chunk, _, ⟨hl, hm, hr, rfl⟩, rfl⟩, body, ho, ha, rfl⟩
      have ht : (chunk ++ body).take chunkSize = chunk ∧ (chunk ++ body).drop chunkSize = body := by
        by_cases hb : body = []
        · subst hb
          have : chunk.length ≤ chunkSize := by omega
          simp [List.take_of_length_le this, List.drop_eq_nil_of_le this]
        · have hbl := List.length_pos_of_ne_nil hb
          have : chunk.length = chunkSize := by omega
          simp [← this]
      have hne : chunk ++ body ≠ [] := by
        intro h
        have := congrArg List.length h
        simp only [List.length_append, List.length_nil, hl, chunkSize] at this
        omega
      refine ⟨chunk ++ body, ?_, ?_, ?_⟩
      · simp only [List.length_append]
        omega
      · rw [bodyEffect_cons hne, ht.1, ht.2, admits_append, admits_append, run_append]
        exact ⟨⟨admits_text.2 ⟨hr, fun _ => by omega⟩, admits_event _⟩, ha⟩
      · rw [bodyEffect_cons hne, ht.1, ht.2, run_append, run_append]
    · rintro ⟨body, ho, ha, rfl⟩
      have hne : body ≠ [] := by
        intro h
        simp [h] at ho
        omega
      rw [bodyEffect_cons hne, admits_append, admits_append, run_append] at ha
      obtain ⟨⟨hh, -⟩, he⟩ := ha
      have hl : (body.take chunkSize).length = min (size - offset) chunkSize := by
        rw [List.length_take, ho, Nat.min_comm]
      have hm := (admits_text.1 hh).2 (by
        intro h
        rw [h, List.length_nil] at hl
        unfold chunkSize at hl
        omega)
      refine ⟨(), _, ⟨body.take chunkSize, _, ⟨hl, by omega, (admits_text.1 hh).1, rfl⟩,
        rfl⟩, body.drop chunkSize, ?_, he, ?_⟩
      · rw [List.length_drop, ho, Nat.sub_sub]
      · rw [bodyEffect_cons hne, run_append, run_append]

theorem streamFileContents_ok :
    streamFileContents L collect size d = .ok (u, d') ↔
      ∃ body, body.length = size ∧ Admits L d (bodyEffect body ++ text (padding size)) ∧
        d' = (bodyEffect body ++ text (padding size)).run d := by
  simp only [streamFileContents, bind_ok, readPadding_ok, admits_append, run_append,
    streamChunks_ok size 0 (chunkCount size) rfl]
  constructor
  · rintro ⟨_, _, ⟨body, hl, hb, rfl⟩, hp, rfl⟩
    exact ⟨body, hl, ⟨hb, hp⟩, rfl⟩
  · rintro ⟨body, hl, ⟨hb, hp⟩, rfl⟩
    exact ⟨(), _, ⟨body, hl, hb, rfl⟩, hp, rfl⟩

end NarDecoderEffects
