import Narjar.ChunkMarking

/-!
# What a sweep leaves behind

A sweep that succeeds removes exactly the chunk files no live manifest lists, together with
their repair markers. A collection that fails while marking removes nothing.
-/
namespace ChunkSweepExactness

open ByteCodecs ManifestFormat ObjectNames FaultyPrograms FileTree ChunkSweep
open ChunkMarking List

section Removal

variable (start : Files) (L : Bytes → Bytes → Prop)

def Doomed (shard name : Bytes) : Prop :=
  isChunkShardName shard = true ∧ isChunkName name = true ∧
    (∃ contents, start.get (chunkDirectory ++ [shard, name]) = some (.file contents)) ∧
    ¬L shard name

/-- The path of a chunk in `D` or of its repair marker. -/
def Removed (D : Bytes → Bytes → Prop) (path : Path) : Prop :=
  ∃ shard name, D shard name ∧ (path = chunkDirectory ++ [shard, name] ∨
    ∃ hash, parseChunkHash name = some hash ∧
      path = chunkDirectory ++ [chunkRepairMarkerName hash])

/-- The chunk directory as it was without the chunks in `D` and their repair markers. -/
def Swept (D : Bytes → Bytes → Prop) (f : Files) : Prop :=
  ∀ path, chunkDirectory <+: path → ¬gcMarkDirectory <+: path →
    (Removed D path ∧ f.get path = none) ∨ (¬Removed D path ∧ f.get path = start.get path)

variable {start L} {shard name : Bytes} {hash : Digest}

theorem Swept.congr (h : Swept start D f) (hDE : ∀ shard name, E shard name ↔ D shard name) :
    Swept start E f := by
  have hs : E = D := funext fun s => funext fun n => propext (hDE s n)
  rw [hs]
  exact h

theorem chunk_path_not_marked (hs : isChunkShardName shard = true) (rest : Path) :
    ¬gcMarkDirectory <+: chunkDirectory ++ (shard :: rest) := by
  intro h
  have ht := (prefix_append_right_inj _).1 h
  rw [← (cons_prefix_cons.1 ht).1] at hs
  revert hs
  decide

theorem chunk_path_ne_marker :
    chunkDirectory ++ [shard', name'] ≠ chunkDirectory ++ [chunkRepairMarkerName hash] := by
  intro h
  have ht := append_cancel_left h
  simp at ht

theorem removed_chunk_iff : Removed D (chunkDirectory ++ [shard, name]) ↔ D shard name := by
  constructor
  · intro h
    obtain ⟨s, n, hD, hp | ⟨hash, -, hp⟩⟩ := h
    · have ht := append_cancel_left hp
      simp only [List.cons.injEq, and_true] at ht
      rw [ht.1, ht.2]
      exact hD
    · exact absurd hp chunk_path_ne_marker
  · intro hD
    exact ⟨shard, name, hD, .inl rfl⟩

theorem Swept.get_of_ne_none (h : Swept start D f) (hs : isChunkShardName shard = true)
    (hg : f.get (chunkDirectory ++ [shard, name]) ≠ none) :
    ¬D shard name ∧ f.get (chunkDirectory ++ [shard, name]) =
      start.get (chunkDirectory ++ [shard, name]) := by
  rcases h _ (prefix_append _ _) (chunk_path_not_marked hs _) with ho | hk
  · exact absurd ho.2 hg
  · rw [removed_chunk_iff] at hk
    exact hk

theorem finishPendingChunkRepair_spec :
    Returns (· = f) (finishPendingChunkRepair hash)
      (fun _ g => g.get (chunkDirectory ++ [chunkRepairMarkerName hash]) = none ∧
        SameOutside (· = chunkDirectory ++ [chunkRepairMarkerName hash]) f g) := by
  refine .handle (openRegularAt_spec.relax (fun _ _ => id)
    fun _ _ => trivial) ?_ ?_
  · intro contents
    refine .bind (Q := fun _ g => g = f) (.ofState fun g hg => ?_) fun _ =>
      .bind unlinkAt_spec.onSuccess fun _ => .ofState fun g hg => ?_
    · exact syncAll_spec.onSuccess.weaken fun _ h hh => hh.trans hg.1
    · exact syncAll_spec.onSuccess.weaken fun _ h hh => hh ▸ hg
  · intro e
    split_ifs with hk
    · apply Triple.pure
      intro g hg
      rw [hg.1]
      exact ⟨hg.2 hk, .refl _ _⟩
    · exact .stop fun _ _ => trivial

theorem Swept.remove (hD : Swept start D f) (hh : parseChunkHash name = some hash)
    (ha : g.get (chunkDirectory ++ [chunkRepairMarkerName hash]) = none)
    (hfg : SameOutside (· = chunkDirectory ++ [chunkRepairMarkerName hash]) f g)
    (hu : h.get (chunkDirectory ++ [shard, name]) = none)
    (hgh : SameOutside (· = chunkDirectory ++ [shard, name]) g h) :
    Swept start (fun s n => D s n ∨ (s = shard ∧ n = name)) h := by
  intro path hp hr
  by_cases hc : path = chunkDirectory ++ [shard, name]
  · rw [hc]
    exact .inl ⟨⟨shard, name, .inr ⟨rfl, rfl⟩, .inl rfl⟩, hu⟩
  by_cases hm : path = chunkDirectory ++ [chunkRepairMarkerName hash]
  · rw [hgh path hc, hm]
    exact .inl ⟨⟨shard, name, .inr ⟨rfl, rfl⟩, .inr ⟨hash, hh, rfl⟩⟩, ha⟩
  rw [hgh path hc, hfg path hm]
  refine (hD path hp hr).imp (fun hg => ⟨?_, hg.2⟩) fun hk => ⟨?_, hk.2⟩
  · obtain ⟨s, n, hsn, hw⟩ := hg.1
    exact ⟨s, n, .inl hsn, hw⟩
  · intro he
    obtain ⟨s, n, hsn | ⟨rfl, rfl⟩, hw⟩ := he
    · exact hk.1 ⟨s, n, hsn, hw⟩
    · rcases hw with hp | ⟨hash', hh', hp⟩
      · exact hc hp
      · rw [hh] at hh'
        cases hh'
        exact hm hp

end Removal

section Loops

variable (start : Files) (L : Bytes → Bytes → Prop)

def Sweeping (D : Bytes → Bytes → Prop) (f : Files) : Prop := Swept start D f ∧ MarkState L f

variable {start L} {shard name : Bytes} {hash : Digest}

theorem Sweeping.congr (h : Sweeping start L D f) (hDE : ∀ shard name, E shard name ↔ D shard name) :
    Sweeping start L E f := ⟨h.1.congr hDE, h.2⟩

theorem mark_path_ne_chunk (rest : Path) (hr : rest.length ≤ 2)
    (_ : isChunkShardName shard' = true) :
    gcMarkDirectory ++ [shard', name'] ≠ chunkDirectory ++ rest := by
  intro h
  have hl := congrArg List.length h
  simp only [gcMarkDirectory, length_append, length_cons, length_nil] at hl
  omega

theorem gcMarkerExists_spec :
    Returns (· = f) (gcMarkerExists path)
      (fun marked g => g = f ∧ (marked = true ↔ ∃ contents, f.get path = some (.file contents))) := by
  refine .handle (entryIsRegularAt_spec.relax (fun _ _ => id)
    fun _ _ => trivial) ?_ ?_
  · intro regular
    exact .pure fun g hg => ⟨hg.1, hg.2.2⟩
  · intro e
    split_ifs with hk
    · apply Triple.pure
      intro g hg
      refine ⟨hg.1, ?_⟩
      rw [hg.2 hk]
      simp
    · exact .stop fun _ _ => trivial

theorem chunkIsMarked_spec (hf : MarkState L f)
    (hs : IsChunkPlace shard name) (hu : markedShard = false → ¬L shard name) :
    Returns (· = f) (chunkIsMarked shard markedShard name)
      (fun marked g => g = f ∧ (marked = true ↔ L shard name)) := by
  cases markedShard with
  | false =>
    apply Triple.pure
    intro g hg
    refine ⟨hg, ?_⟩
    simpa using hu rfl
  | true =>
    refine gcMarkerExists_spec.weaken ?_
    intro marked g hg
    refine ⟨hg.1, hg.2.trans ?_⟩
    rcases hf shard name hs with hm | hn
    · rw [hm.2]
      simpa using hm.1
    · rw [hn.2]
      simpa using hn.1

theorem deleteUnmarkedChunk_spec
    (ha : isChunkShardName shard = true)
    (hu : markedShard = false → ∀ name, isChunkName name = true → ¬L shard name) :
    Returns (Sweeping start L D) (deleteUnmarkedChunk shard markedShard deleted name)
      (fun _ => Sweeping start L fun s n => D s n ∨ (Doomed start L s n ∧ s = shard ∧ n = name)) := by
  apply Triple.ofState
  intro f hf
  -- A name that is not doomed changes nothing.
  have hk : ¬Doomed start L shard name → Sweeping start L
      (fun s n => D s n ∨ (Doomed start L s n ∧ s = shard ∧ n = name)) f := by
    intro hp
    refine hf.congr fun s n => or_iff_left ?_
    intro ho
    obtain ⟨hd, rfl, rfl⟩ := ho
    exact hp hd
  unfold deleteUnmarkedChunk
  split_ifs with hn
  swap
  · exact .pure fun g hg => hg ▸ hk fun ho => hn ho.2.1
  refine .bind entryIsRegularAt_spec.onSuccess ?_
  intro regular
  split_ifs with hr
  swap
  · apply Triple.pure
    intro g hg
    obtain ⟨rfl, ht, hi⟩ := hg
    apply hk
    intro ho
    have hc := ho.2.2.1
    rw [← (hf.1.get_of_ne_none ha ht).2] at hc
    exact hr (hi.2 hc)
  refine .bind (Q := fun marked g => g = f ∧ (marked = true ↔ L shard name) ∧
    ∃ contents, f.get (chunkDirectory ++ [shard, name]) = some (.file contents)) ?_ ?_
  · apply Triple.ofState
    intro g hg
    obtain ⟨rfl, -, hi⟩ := hg
    exact (chunkIsMarked_spec hf.2 ⟨ha, hn⟩ fun h => hu h name hn).weaken fun marked h hh =>
      ⟨hh.1, hh.2, hi.1 hr⟩
  intro marked
  split_ifs with hm
  · apply Triple.pure
    intro g hg
    rw [hg.1]
    exact hk fun ho => ho.2.2.2 (hg.2.1.1 hm)
  obtain ⟨hash, hha⟩ := parseChunkHash_of_isChunkName hn
  rw [hha]
  refine .bind (Q := fun _ g => g.get (chunkDirectory ++ [chunkRepairMarkerName hash]) = none ∧
    SameOutside (· = chunkDirectory ++ [chunkRepairMarkerName hash]) f g ∧
    Doomed start L shard name) ?_ fun _ => ?_
  · apply Triple.ofState
    intro g hg
    obtain ⟨rfl, hma, hi⟩ := hg
    have ht : g.get (chunkDirectory ++ [shard, name]) ≠ none := by
      rw [hi.choose_spec]
      exact Option.some_ne_none _
    have ho : Doomed start L shard name := by
      refine ⟨ha, hn, ?_, fun hL => hm (hma.2 hL)⟩
      rw [← (hf.1.get_of_ne_none ha ht).2]
      exact hi
    exact finishPendingChunkRepair_spec.weaken fun _ h hh => ⟨hh.1, hh.2, ho⟩
  · refine .bind (Q := fun _ => Sweeping start L fun s n =>
      D s n ∨ (Doomed start L s n ∧ s = shard ∧ n = name)) (.ofState fun g hg => ?_) fun _ =>
      .pure fun _ => id
    obtain ⟨hmr, hfg, ho⟩ := hg
    refine unlinkAt_spec.onSuccess.weaken fun _ h hh => ⟨?_, ?_⟩
    · refine (hf.1.remove hha hmr hfg hh.1 hh.2).congr fun s n => or_congr_right ?_
      constructor
      · exact fun hd => hd.2
      · intro hsn
        obtain ⟨rfl, rfl⟩ := hsn
        exact ⟨ho, rfl, rfl⟩
    · have hg := hf.2.of_sameOutside hfg fun s n hs => mark_path_ne_chunk _ (by simp) hs
      exact hg.of_sameOutside hh.2 fun s n hs => mark_path_ne_chunk _ (by simp) hs

theorem openMarkedShard_spec (hf : MarkState L f) (hs : isChunkShardName shard = true) :
    Returns (· = f) (openMarkedShard shard)
      (fun markedShard g => g = f ∧
        (markedShard = false → ∀ name, isChunkName name = true → ¬L shard name)) := by
  refine .handle (openDirectoryAt_spec.relax (fun _ _ => id)
    fun _ _ => trivial) ?_ ?_
  · exact fun _ => .pure fun g hg => ⟨hg.1, fun h => nomatch h⟩
  · intro e
    split_ifs with hk
    · apply Triple.pure
      intro g hg
      refine ⟨hg.1, ?_⟩
      -- Without its directory no mark of the shard exists.
      intro _ name hna hl
      rcases hf shard name ⟨hs, hna⟩ with hm | hn
      · have hp : gcMarkDirectory ++ [shard] = [] ∨
            f.get (gcMarkDirectory ++ [shard]) = some .directory := by
          apply f.get_parent
          rw [append_assoc, singleton_append, hm.2]
          exact Option.some_ne_none _
        rcases hp with he | hd
        · simp at he
        · rw [hg.2 hk] at hd
          cases hd
      · exact hn.1 hl
    · exact .stop fun _ _ => trivial

theorem syncIfChanged_spec :
    Returns P (syncIfChanged deleted) (fun _ => P) := by
  unfold syncIfChanged
  split_ifs
  · exact .ofState fun f hf => syncAll_spec.onSuccess.weaken fun _ g hg => hg ▸ hf
  · exact .pure fun _ => id

theorem deleteUnmarkedShard_spec
    (ha : isChunkShardName shard = true) :
    Returns (Sweeping start L fun s n => Doomed start L s n ∧ s ∈ done)
      (deleteUnmarkedShard deleted shard)
      (fun _ => Sweeping start L fun s n => Doomed start L s n ∧ s ∈ done ++ [shard]) := by
  apply Triple.ofState
  intro f hf
  refine .bind (openDirectoryAt_spec.onSuccess.weaken fun _ _ hg => hg.1) fun _ =>
    .bind (openMarkedShard_spec hf.2 ha) fun markedShard => ?_
  apply Triple.ofState
  intro g hg
  obtain ⟨rfl, hu⟩ := hg
  refine .bind readDirNames_spec.onSuccess fun names => .ofState fun h hh => ?_
  obtain ⟨rfl, rfl⟩ := hh
  -- A doomed file of the shard is either gone already or among the names read.
  have hl : ∀ n, Doomed start L shard n →
      shard ∈ done ∨ n ∈ h.names (chunkDirectory ++ [shard]) := by
    intro n ho
    obtain ⟨contents, hi⟩ := ho.2.2.1
    rcases hf.1 _ (prefix_append _ _) (chunk_path_not_marked ha [n]) with he | hk
    · exact .inl (removed_chunk_iff.1 he.1).2
    · rw [hi] at hk
      refine .inr (h.mem_names.2 ?_)
      rw [append_assoc, singleton_append, hk.2]
      exact Option.some_ne_none _
  refine .bind (Q := fun _ => Sweeping start L fun s n => Doomed start L s n ∧ s ∈ done ++ [shard])
    ?_ fun _ => .bind syncIfChanged_spec fun _ => .pure fun _ => id
  refine (Triple.foldEach (K := fun names _ => Sweeping start L fun s n =>
    (Doomed start L s n ∧ s ∈ done) ∨ (Doomed start L s n ∧ s = shard ∧ n ∈ names)) ?_).consequence
    ?_ ?_ (fun _ _ => id) fun _ => id
  · intro names name rest _ _
    refine (deleteUnmarkedChunk_spec ha hu).weaken fun _ f hf => hf.congr fun s n => ?_
    simp only [mem_append, mem_singleton, or_assoc]
    tauto
  · intro f hf'
    rw [hf']
    exact hf.congr fun s n => by simp
  · intro _ f hf'
    refine hf'.congr fun s n => ?_
    rw [mem_append, mem_singleton]
    constructor
    · intro hd
      obtain ⟨ho, hs | rfl⟩ := hd
      · exact .inl ⟨ho, hs⟩
      · exact (hl n ho).imp (fun hs => ⟨ho, hs⟩) fun hn => ⟨ho, rfl, hn⟩
    · intro hd
      rcases hd with ⟨ho, hs⟩ | ⟨ho, hs, -⟩
      · exact ⟨ho, .inl hs⟩
      · exact ⟨ho, .inr hs⟩

theorem deleteUnmarkedChunks_spec :
    Returns (Sweeping start L fun _ _ => False) deleteUnmarkedChunks
      (fun _ => Sweeping start L (Doomed start L)) := by
  apply Triple.ofState
  intro f hf
  refine .bind readDirNames_spec.onSuccess fun names => .ofState fun g hg => ?_
  obtain ⟨rfl, rfl⟩ := hg
  refine (Triple.foldEach (K := fun done _ =>
    Sweeping start L fun s n => Doomed start L s n ∧ s ∈ done) ?_).consequence ?_ ?_
    (fun _ _ => id) fun _ => id
  · intro done shard rest _ ht
    apply deleteUnmarkedShard_spec
    have hm : shard ∈ (g.names chunkDirectory).filter isChunkShardName := by
      rw [ht]
      exact mem_append_right _ mem_cons_self
    exact (mem_filter.1 hm).2
  · intro f hf'
    rw [hf']
    exact hf.congr fun s n => by simp
  · intro _ f hf'
    refine hf'.congr fun s n => ⟨fun ho => ⟨ho, ?_⟩, fun hd => hd.1⟩
    -- The shard of a file is an entry of the chunk directory.
    obtain ⟨hs, -, ⟨contents, hl⟩, -⟩ := ho
    refine mem_filter.2 ⟨g.mem_names.2 ?_, hs⟩
    rcases hf.1 _ (prefix_append _ _) (chunk_path_not_marked hs [n]) with hn | hk
    · exact absurd (removed_chunk_iff.1 hn.1) id
    · have hp : chunkDirectory ++ [s] = [] ∨ g.get (chunkDirectory ++ [s]) = some .directory := by
        apply g.get_parent
        rw [append_assoc, singleton_append, hk.2, hl]
        exact Option.some_ne_none _
      rcases hp with he | hi
      · simp at he
      · rw [hi]
        exact Option.some_ne_none _

end Loops

section Sweep

variable {sha256 : Bytes → Digest} {start : Files} {L : Bytes → Bytes → Prop}

theorem touches_deleteUnmarkedManifests : Touches (manifestDirectory <+: ·) deleteUnmarkedManifests := by
  refine .bind touches_observe fun _ => .bind touches_observe fun _ => .bind (.foldEach ?_) fun _ =>
    .bind (.ite touches_syncAll touches_pure) fun _ => touches_pure
  intro deleted name _
  refine .ite (.bind touches_observe fun regular => .ite ?_ touches_pure) touches_pure
  refine .bind touches_gcMarkerExists fun marked => .ite touches_pure ?_
  exact .bind (touches_unlinkAt (prefix_append _ _)) fun _ => touches_pure

theorem chunk_not_manifest (h : chunkDirectory <+: path) :
    ¬manifestDirectory <+: path := by
  intro hm
  obtain ⟨rest, rfl⟩ := h
  have hf := (cons_prefix_cons.1 hm).1
  revert hf
  decide

theorem Swept.of_sameOutside (h : Swept start D f) (hfg : SameOutside p f g)
    (hp : ∀ path, chunkDirectory <+: path → ¬gcMarkDirectory <+: path → ¬p path) :
    Swept start D g := by
  intro path ha hm
  rw [hfg path (hp path ha hm)]
  exact h path ha hm

theorem sweep_rule
    (hd : Returns P
      (do
        let deletedManifests ← deleteUnmarkedManifests
        let deletedChunks ← deleteUnmarkedChunks
        pure (ChunkSweepReport.mk deletedManifests deletedChunks))
      (fun _ => S))
    (hc : Returns S (clearGcMarkFiles gcMarkDirectory) (fun _ => R)) : Returns P sweep (fun _ => R) := by
  refine .bind (Q := fun result f => ∀ report, result = .ok report → S f)
    (.attempt (hd.consequence (fun _ => id) ?_ ?_ fun _ _ => trivial)) fun result => ?_
  · exact fun _ f hf _ _ => hf
  · exact fun _ _ _ _ h => nomatch h
  cases result with
  | error e =>
    exact .bind (Q := fun _ _ => True) Triple.trivial fun _ => .stop fun _ _ => trivial
  | ok report =>
    refine .bind (Q := fun cleared g => cleared = .ok () → R g)
      (.attempt (hc.consequence (fun f hf => hf report rfl) ?_ ?_ fun _ _ => trivial))
      fun cleared => ?_
    · exact fun _ g hg _ => hg
    · exact fun _ _ _ h => nomatch h
    · cases cleared with
      | error e => exact .stop fun _ _ => trivial
      | ok _ => exact .pure fun g hg => hg rfl

theorem sweep_spec :
    Returns (fun f => MarkState L f ∧ SameOutside (gcMarkDirectory <+: ·) start f) sweep
      (fun _ f => Swept start (Doomed start L) f ∧ CleanMarks f) := by
  have hm : Returns (fun f => MarkState L f ∧ SameOutside (gcMarkDirectory <+: ·) start f)
      deleteUnmarkedManifests (fun _ => Sweeping start L fun _ _ => False) := by
    apply Triple.ofState
    intro f hf
    refine (touches_deleteUnmarkedManifests f).onSuccess.consequence (fun g hg => hg ▸ .refl _ _) ?_
      (fun _ _ => id) fun _ => id
    intro _ g hg
    refine ⟨fun path hp hr => .inr ⟨?_, ?_⟩, hf.1.of_sameOutside hg fun s n _ =>
      chunk_not_manifest ⟨_, rfl⟩⟩
    · intro he
      obtain ⟨_, _, ha, -⟩ := he
      exact ha
    · rw [hg path (chunk_not_manifest hp), hf.2 path hr]
  refine sweep_rule (S := Sweeping start L (Doomed start L))
    (.bind hm fun _ => .bind deleteUnmarkedChunks_spec fun _ => .pure fun _ => id) ?_
  apply Triple.ofState
  intro f hf
  refine clearGcMarkFiles_spec.onSuccess.weaken ?_
  intro _ g hg
  refine ⟨hf.1.of_sameOutside hg.1 fun _ _ hp => hp, ?_⟩
  intro shard name hs
  rcases hg.2 _ (prefix_append _ _) with hn | hd
  · rw [hn]
    exact fun h => nomatch h
  · exact absurd hd.2 (hf.2.cleanMarks shard name hs)

/-- A sweep that succeeds keeps the chunks the live manifests list, leaves no other chunk file and
changes nothing else but the repair markers of the chunks it removed; the mark directory is as
clean as it was. A collection that fails while marking changes nothing outside of the mark
directory. -/
theorem sweepUnreachable_is_exact (liveManifests : List Digest) (faults : List Fault)
    (hclean : CleanMarks start) :
    (∀ report, (sweepUnreachable sha256 liveManifests start faults).exit = .done report →
      (∀ shard name, Listed sha256 start liveManifests shard name →
        (sweepUnreachable sha256 liveManifests start faults).state.get
            (chunkDirectory ++ [shard, name]) = start.get (chunkDirectory ++ [shard, name])) ∧
      (∀ shard name contents, isChunkShardName shard = true → isChunkName name = true →
        (sweepUnreachable sha256 liveManifests start faults).state.get
            (chunkDirectory ++ [shard, name]) = some (.file contents) →
        Listed sha256 start liveManifests shard name) ∧
      (∀ path, chunkDirectory <+: path → ¬gcMarkDirectory <+: path →
        ¬Removed (Doomed start (Listed sha256 start liveManifests)) path →
        (sweepUnreachable sha256 liveManifests start faults).state.get path = start.get path) ∧
      CleanMarks (sweepUnreachable sha256 liveManifests start faults).state) ∧
    (∀ error, (markRetainedManifests sha256 liveManifests start faults).exit = .failed error →
      (sweepUnreachable sha256 liveManifests start faults).exit = .failed error ∧
      ∀ path, ¬gcMarkDirectory <+: path →
        (sweepUnreachable sha256 liveManifests start faults).state.get path = start.get path) := by
  have hu : Triple (· = start) (sweepUnreachable sha256 liveManifests)
      (fun _ f => Swept start (Doomed start (Listed sha256 start liveManifests)) f ∧ CleanMarks f)
      (fun _ _ => True) fun _ => True :=
    .bind (markRetainedManifests_marks hclean) fun _ => sweep_spec
  refine ⟨?_, ?_⟩
  · intro report hr
    obtain ⟨hw, hm⟩ := hu.done rfl hr
    refine ⟨?_, ?_, ?_, hm⟩
    · intro shard name hl
      have hh : isChunkShardName shard = true := by
        obtain ⟨_, _, _, _, _, _, _, _, d, -, rfl, -⟩ := hl
        exact isChunkShardName_shardName d.hash
      rcases hw _ (prefix_append _ _) (chunk_path_not_marked hh [name]) with
        hg | hs
      · exact absurd hl (removed_chunk_iff.1 hg.1).2.2.2
      · exact hs.2
    · intro shard name contents hh hn hf
      have hth : (sweepUnreachable sha256 liveManifests start faults).state.get
          (chunkDirectory ++ [shard, name]) ≠ none := by
        rw [hf]
        exact Option.some_ne_none _
      obtain ⟨ha, hs⟩ := hw.get_of_ne_none hh hth
      by_contra hi
      exact ha ⟨hh, hn, ⟨contents, hs ▸ hf⟩, hi⟩
    · intro path hp ho hk
      rcases hw path hp ho with hg | hs
      · exact absurd hg.1 hk
      · exact hs.2
  · intro error he
    obtain ⟨hx, ht⟩ := bind_failed (f := fun _ => sweep) he
    refine ⟨hx, fun path hp => ?_⟩
    have hs := (touches_markRetainedManifests start).failed (.refl _ _) he
    exact (congrArg (·.get path) ht).trans (hs path hp)

theorem cleanMarks_of_entries
    (h : (start.entries.all fun p => !gcMarkDirectory.isPrefixOf p.1) = true) :
    CleanMarks start := by
  intro shard name _ hd
  have he := all_eq_true.1 h _ (start.get_eq_some.1 hd)
  rw [List.isPrefixOf_iff_prefix.2 (prefix_append _ _)] at he
  cases he

def digestOf (byte : UInt8) : Digest := ⟨List.replicate 32 byte, length_repeated byte⟩

/-- The complete manifest of a NAR of one chunk, for a hash function that is constantly zero. -/
def sampleManifest : Bytes :=
  completeManifest (fun _ => digestOf 0) ⟨⟨digestOf 2, 5⟩, .minCdcHash4V2, 1⟩
    (recordsOf [⟨5, digestOf 17⟩])

/-- One live manifest with its chunk, and a chunk that no manifest lists with a repair marker. -/
def sampleStore : Files where
  entries := [(manifestDirectory, .directory), (chunkDirectory, .directory),
    (manifestDirectory ++ [manifestName (digestOf 2)], .file sampleManifest),
    (chunkDirectory ++ [shardName (digestOf 17)], .directory),
    (chunkDirectory ++ [shardName (digestOf 17), chunkName (digestOf 17)], .file [1, 2, 3, 4, 5]),
    (chunkDirectory ++ [shardName (digestOf 0)], .directory),
    (chunkDirectory ++ [shardName (digestOf 0), chunkName (digestOf 0)], .file [9]),
    (chunkDirectory ++ [chunkRepairMarkerName (digestOf 0)], .file [])]
  nodup := by decide +kernel
  rooted := rooted_of_entries (by decide +kernel)

/-- The chunk of the live manifest is kept and the other chunk is removed. -/
theorem sampleStore_sweep_is_exact :
    CleanMarks sampleStore ∧
      (sweepUnreachable (fun _ => digestOf 0) [digestOf 2] sampleStore []).exit = .done ⟨0, 1⟩ ∧
      Listed (fun _ => digestOf 0) sampleStore [digestOf 2] (shardName (digestOf 17))
        (chunkName (digestOf 17)) ∧
      (sweepUnreachable (fun _ => digestOf 0) [digestOf 2] sampleStore []).state.get
        (chunkDirectory ++ [shardName (digestOf 17), chunkName (digestOf 17)]) =
          some (.file [1, 2, 3, 4, 5]) ∧
      (sweepUnreachable (fun _ => digestOf 0) [digestOf 2] sampleStore []).state.get
        (chunkDirectory ++ [shardName (digestOf 0), chunkName (digestOf 0)]) = none := by
  have hc : CleanMarks sampleStore := cleanMarks_of_entries (by decide +kernel)
  have hd : (sweepUnreachable (fun _ => digestOf 0) [digestOf 2] sampleStore []).exit =
      .done ⟨0, 1⟩ := by decide +kernel
  have hl : Listed (fun _ => digestOf 0) sampleStore [digestOf 2] (shardName (digestOf 17))
      (chunkName (digestOf 17)) := by
    have ht : Tiles ⟨⟨digestOf 2, 5⟩, .minCdcHash4V2, 1⟩ 0 none [⟨5, digestOf 17⟩] := by
      simp [Tiles, ChunkProfile.maxSize]
    have ho : ∃ reader, ManifestReader.new sampleManifest maxChunkManifestBytes = .ok reader ∧
        reader.manifest = ⟨⟨digestOf 2, 5⟩, .minCdcHash4V2, 1⟩ ∧
        Continues (fun _ => digestOf 0) reader [⟨5, digestOf 17⟩] :=
      completeManifest_opens ⟨by decide, by decide⟩ rfl ht (by decide +kernel)
    obtain ⟨reader, hn, -, hi⟩ := ho
    exact ⟨digestOf 2, mem_singleton_self _, sampleManifest, reader, _, by decide +kernel, hn,
      hi, ⟨5, digestOf 17⟩, mem_singleton_self _, rfl, rfl⟩
  obtain ⟨hk, -⟩ := (sweepUnreachable_is_exact [digestOf 2] [] hc).1 ⟨0, 1⟩ hd
  refine ⟨hc, hd, hl, ?_, by decide +kernel⟩
  rw [hk _ _ hl]
  decide +kernel

/-- Sweeping the other chunk also removes its repair marker, which is no chunk. -/
theorem sampleStore_loses_repair_marker :
    ∃ name, isChunkName name = false ∧ isManifestName name = false ∧
      (sweepUnreachable (fun _ => digestOf 0) [digestOf 2] sampleStore []).exit = .done ⟨0, 1⟩ ∧
      sampleStore.get (chunkDirectory ++ [name]) = some (.file []) ∧
      (sweepUnreachable (fun _ => digestOf 0) [digestOf 2] sampleStore []).state.get
        (chunkDirectory ++ [name]) = none := ⟨chunkRepairMarkerName (digestOf 0), by decide +kernel⟩

end Sweep

end ChunkSweepExactness
