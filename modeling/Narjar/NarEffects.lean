import Narjar.NarFormat

/-!
# Metered archive pieces

An effect is what one piece of an archive costs and shows: the bytes it occupies, the units
it counts and the events that belong to it. Effects compose, and a composition stays within
the limits exactly when its parts do, one after the other. Decoder and encoder share both.
-/
namespace NarEffects

open ByteCodecs NarFormat

variable {ε : Type}

/-- `events` takes the byte offset at which the piece starts. -/
@[ext] structure Effect (ε : Type) where
  bytes : Bytes := []
  work : ℕ := 0
  entries : ℕ := 0
  files : ℕ := 0
  symlinks : ℕ := 0
  events : ℕ → List ε := fun _ => []

instance : Append (Effect ε) where
  append e f :=
    { bytes := e.bytes ++ f.bytes
      work := e.work + f.work
      entries := e.entries + f.entries
      files := e.files + f.files
      symlinks := e.symlinks + f.symlinks
      events := fun offset => e.events offset ++ f.events (offset + e.bytes.length) }

@[simp] theorem append_bytes (e f : Effect ε) : (e ++ f).bytes = e.bytes ++ f.bytes := rfl
@[simp] theorem append_work (e f : Effect ε) : (e ++ f).work = e.work + f.work := rfl
@[simp] theorem append_entries (e f : Effect ε) : (e ++ f).entries = e.entries + f.entries := rfl
@[simp] theorem append_files (e f : Effect ε) : (e ++ f).files = e.files + f.files := rfl
@[simp] theorem append_symlinks (e f : Effect ε) :
    (e ++ f).symlinks = e.symlinks + f.symlinks := rfl
@[simp] theorem append_events (e f : Effect ε) (offset : ℕ) :
    (e ++ f).events offset = e.events offset ++ f.events (offset + e.bytes.length) := rfl

def text (bytes : Bytes) : Effect ε := { bytes := bytes }
def tick : Effect ε := { work := 1 }
def oneEntry : Effect ε := { entries := 1 }
def oneFile : Effect ε := { files := 1 }
def oneSymlink : Effect ε := { symlinks := 1 }
def event (e : ε) : Effect ε := { events := fun _ => [e] }
def eventAt (e : ℕ → ε) : Effect ε := { events := fun offset => [e offset] }

theorem text_append (a b : Bytes) : (text (a ++ b) : Effect ε) = text a ++ text b := rfl

theorem append_assoc (e f g : Effect ε) : e ++ f ++ g = e ++ (f ++ g) := by
  ext1
  · exact List.append_assoc _ _ _
  · exact Nat.add_assoc _ _ _
  · exact Nat.add_assoc _ _ _
  · exact Nat.add_assoc _ _ _
  · exact Nat.add_assoc _ _ _
  · funext offset
    simp [Nat.add_assoc]

@[simp] theorem text_nil_append (e : Effect ε) : text [] ++ e = e := by
  ext1 <;> simp [text]
  rfl

@[simp] theorem append_text_nil (e : Effect ε) : e ++ text [] = e := by
  ext1 <;> simp [text]
  funext offset
  simp

structure Meter where
  rawBytes : ℕ
  work : ℕ
  entries : ℕ
  files : ℕ
  symlinks : ℕ
  deriving DecidableEq, Repr

def Effect.charge (e : Effect ε) (m : Meter) : Meter where
  rawBytes := m.rawBytes + e.bytes.length
  work := saturatingAdd m.work e.work
  entries := m.entries + e.entries
  files := saturatingAdd m.files e.files
  symlinks := saturatingAdd m.symlinks e.symlinks

/-- No limit stands in the way of the effect. -/
structure HasRoom (L : Limits) (m : Meter) (e : Effect ε) : Prop where
  total : e.bytes ≠ [] → m.rawBytes + e.bytes.length ≤ L.maxTotalBytes.toNat
  work : e.work ≠ 0 → saturatingAdd m.work e.work ≤ L.maxWork.toNat
  entries : e.entries ≠ 0 → m.entries + e.entries ≤ L.maxEntries.toNat

variable {L : Limits} {m : Meter}

theorem charge_append (e f : Effect ε) : (e ++ f).charge m = f.charge (e.charge m) := by
  simp only [Effect.charge, append_bytes, append_work, append_entries, append_files,
    append_symlinks, saturatingAdd_add, List.length_append, Nat.add_assoc]

@[simp] theorem charge_text_nil : (text [] : Effect ε).charge m = m := by
  simp [Effect.charge, text]

theorem hasRoom_append :
    HasRoom L m (e ++ f) ↔ HasRoom L m e ∧ HasRoom L (e.charge m) f := by
  constructor
  · rintro ⟨total, work, entries⟩
    simp only [append_bytes, List.length_append] at total
    simp only [append_work] at work
    simp only [append_entries] at entries
    refine ⟨⟨fun h => ?_, fun h => ?_, fun h => ?_⟩, ⟨fun h => ?_, fun h => ?_, fun h => ?_⟩⟩
    · have := total (by simp [h])
      omega
    · exact (saturatingAdd_mono _ (by omega)).trans (work (by omega))
    · have := entries (by omega)
      omega
    · have := total (by simp [h])
      simp only [Effect.charge]
      omega
    · simp only [Effect.charge, saturatingAdd_add]
      exact work (by omega)
    · have := entries (by omega)
      simp only [Effect.charge]
      omega
  · rintro ⟨he, hf⟩
    have total := hf.total
    have work := hf.work
    have entries := hf.entries
    simp only [Effect.charge, saturatingAdd_add] at total work entries
    refine ⟨fun h => ?_, fun h => ?_, fun h => ?_⟩
    · simp only [append_bytes, List.length_append]
      by_cases hb : f.bytes = []
      · have := he.total (by simpa [hb] using h)
        simpa [hb] using this
      · have := total hb
        omega
    · by_cases hw : f.work = 0
      · simpa [hw] using he.work (by simpa [hw] using h)
      · exact work hw
    · by_cases hn : f.entries = 0
      · simpa [hn] using he.entries (by simpa [hn] using h)
      · have := entries hn
        simp only [append_entries]
        omega

theorem hasRoom_free (hb : e.bytes = []) (hw : e.work = 0) (hn : e.entries = 0) :
    HasRoom L m e := ⟨fun h => absurd hb h, fun h => absurd hw h, fun h => absurd hn h⟩

@[simp] theorem hasRoom_event (e : ε) : HasRoom L m (event e) := hasRoom_free rfl rfl rfl
@[simp] theorem hasRoom_eventAt (e : ℕ → ε) : HasRoom L m (eventAt e) := hasRoom_free rfl rfl rfl
@[simp] theorem hasRoom_oneFile : HasRoom L m (oneFile : Effect ε) := hasRoom_free rfl rfl rfl
@[simp] theorem hasRoom_oneSymlink : HasRoom L m (oneSymlink : Effect ε) :=
  hasRoom_free rfl rfl rfl

theorem hasRoom_text :
    HasRoom L m (text b : Effect ε) ↔
      (b ≠ [] → m.rawBytes + b.length ≤ L.maxTotalBytes.toNat) :=
  ⟨fun h => h.total, fun h => ⟨h, fun h => absurd rfl h, fun h => absurd rfl h⟩⟩

@[simp] theorem hasRoom_text_nil : HasRoom L m (text [] : Effect ε) := hasRoom_free rfl rfl rfl

theorem hasRoom_tick : HasRoom L m (tick : Effect ε) ↔ saturatingAdd m.work 1 ≤ L.maxWork.toNat :=
  ⟨fun h => h.work (by simp [tick]), fun h => ⟨fun h => absurd rfl h, fun _ => h,
    fun h => absurd rfl h⟩⟩

theorem hasRoom_oneEntry : HasRoom L m (oneEntry : Effect ε) ↔ m.entries + 1 ≤ L.maxEntries.toNat :=
  ⟨fun h => h.entries (by simp [oneEntry]), fun h => ⟨fun h => absurd rfl h,
    fun h => absurd rfl h, fun _ => h⟩⟩

end NarEffects
