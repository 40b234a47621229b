import Narjar.ChunkedProjection

/-!
# What a chunked deletion leaves

The narinfos and the outputs of the selection are unlinked, then the sweep removes the manifests
and the chunks that nothing retained has. The bytes that are measured afterwards are the ones
that were projected before.
-/
namespace ChunkedOutcome

open ByteCodecs NarFormat ManifestFormat ObjectNames FaultyPrograms FileTree ChunkSweep
open ChunkMarking ChunkSweepExactness ManifestSweep ChunkedCollection ChunkMeasures ChunkedScan
open ChunkedProjection TextFields List

local instance lawfulOutput : LawfulBEq Bytes := inferInstance

section Deletion

def narinfoPath (store : StoreHash) : Path := [store.bytes ++ narinfoSuffix]

end Deletion

section Apply

variable {sha256 : Bytes → Digest} {n a b : ℕ} {outputs : Fin b → Orphan}
  {selected : ChunkedSelection n a b}

def removedOutputs (entries : Fin n → ChunkedEntry) (outputs : Fin b → Orphan)
    (selected : ChunkedSelection n a b) : List Bytes :=
  (selectedOutputs entries outputs selected).filter fun name =>
    decide (name ∉ liveOutputs entries outputs selected)

def removedPaths (entries : Fin n → ChunkedEntry) (outputs : Fin b → Orphan)
    (selected : ChunkedSelection n a b) : List Path :=
  (selected.entries.map fun i => narinfoPath (entries i).store) ++
    (removedOutputs entries outputs selected).map outputPath

structure Applied (f : Files) (L : Bytes → Bytes → Prop) (live : List Digest) (gone : List Path)
    (h : Files) : Prop where
  chunks : ∀ shard name, isChunkShardName shard = true →
    (Doomed f L shard name ∧ h.get (chunkDirectory ++ [shard, name]) = none) ∨
      (¬Doomed f L shard name ∧
        h.get (chunkDirectory ++ [shard, name]) = f.get (chunkDirectory ++ [shard, name]))
  manifests : Stripped f (Stale f live) h
  others : ∀ path, ¬chunkDirectory <+: path → ¬manifestDirectory <+: path →
    (path ∈ gone ∧ h.get path = none) ∨ (path ∉ gone ∧ h.get path = f.get path)

theorem mem_removedPaths (hp : path ∈ removedPaths entries outputs selected) :
    (∃ i ∈ selected.entries, path = narinfoPath (entries i).store) ∨
      ∃ name ∈ removedOutputs entries outputs selected, path = outputPath name := by
  rcases mem_append.1 hp with ha | ho
  · obtain ⟨i, hi, rfl⟩ := mem_map.1 ha
    exact .inl ⟨i, hi, rfl⟩
  · obtain ⟨name, hn, rfl⟩ := mem_map.1 ho
    exact .inr ⟨name, hn, rfl⟩

end Apply

section Weights

variable {sha256 : Bytes → Digest} {n a b : ℕ} {manifests : Fin a → ChunkManifestFile}
  {outputs : Fin b → Orphan} {selected : ChunkedSelection n a b}

theorem listed_disjoint_preserved :
    Disjoint (listedFiles sha256 f live) (shardFiles fun name => (!isChunkName name) = true) := by
  refine Set.disjoint_left.2 fun path hl hs => ?_
  obtain ⟨shard, name, hl, rfl⟩ := hl
  have hn := (mem_shardFiles.1 hs).2
  rw [(names_of_listed hl).2] at hn
  cases hn

theorem Applied.weight_chunks (ha : Applied f (Listed sha256 f live) live gone h) :
    weight h (shardFiles fun _ => True) = weight f (listedFiles sha256 f live) +
      weight f (shardFiles fun name => (!isChunkName name) = true) := by
  apply Tree.weigh_parts
  · exact listed_disjoint_preserved
  · intro path hp
    rcases hp with ⟨shard, name, hl, rfl⟩ | ⟨shard, hs, name, -, rfl⟩
    · exact mem_shardFiles.2 ⟨(names_of_listed hl).1, trivial⟩
    · exact ⟨shard, hs, name, trivial, rfl⟩
  · intro path hp
    rcases hp with ⟨shard, name, hl, rfl⟩ | ⟨shard, hs, name, hn, rfl⟩
    · rcases ha.chunks shard name (names_of_listed hl).1 with hd | hk
      · exact absurd hl hd.1.2.2.2
      · exact hk.2
    · rw [← chunk_path]
      rcases ha.chunks shard name hs with hd | hk
      · rw [hd.1.2.1] at hn
        cases hn
      · exact hk.2
  · intro path hp ho contents hf
    obtain ⟨shard, hs, name, -, rfl⟩ := hp
    rw [← chunk_path] at hf ho
    rcases ha.chunks shard name hs with hd | hk
    · rw [hd.2] at hf
      cases hf
    · rw [hk.2] at hf
      -- a file with the name of a chunk that is not doomed is listed
      refine hk.1 ⟨hs, ?_, ⟨contents, hf⟩, fun hl => ho (.inl ⟨_, _, hl, rfl⟩)⟩
      by_contra hn
      exact ho (.inr (mem_shardFiles.2 ⟨hs, by simpa using hn⟩))

theorem Applied.weight_manifests (ha : Applied f L live gone h) :
    weight h (Tree.within manifestDirectory fun _ => True) = weight f (manifestsAt live) +
      weight f (Tree.within manifestDirectory fun name => (!isManifestName name) = true) := by
  have hi : ∀ hash, isManifestName (manifestName hash) = true :=
    fun hash => isManifestName_iff.2 ⟨hash, rfl⟩
  apply Tree.weigh_parts
  · refine Set.disjoint_left.2 fun path hl ht => ?_
    obtain ⟨hash, -, rfl⟩ := hl
    have hn := Tree.mem_within.1 ht
    rw [hi hash] at hn
    cases hn
  · intro path hp
    rcases hp with ⟨hash, -, rfl⟩ | ⟨name, -, rfl⟩
    · exact ⟨_, trivial, rfl⟩
    · exact ⟨_, trivial, rfl⟩
  · intro path hp
    rcases hp with ⟨hash, hl, rfl⟩ | ⟨name, hn, rfl⟩
    · rcases ha.manifests (manifestName hash) with hs | hk
      · exact absurd ⟨hash, hl, rfl⟩ hs.1.2.2
      · exact hk.2
    · rcases ha.manifests name with hs | hk
      · rw [hs.1.1] at hn
        cases hn
      · exact hk.2
  · intro path hp ho contents hf
    obtain ⟨name, -, rfl⟩ := hp
    rcases ha.manifests name with hs | hk
    · rw [hs.2] at hf
      cases hf
    · rw [hk.2] at hf
      refine hk.1 ⟨?_, ⟨contents, hf⟩, ?_⟩
      · by_contra hn
        exact ho (.inr ⟨name, by simpa using hn, rfl⟩)
      · intro hl
        obtain ⟨hash, hl, rfl⟩ := hl
        exact ho (.inl ⟨hash, hl, rfl⟩)

theorem classify_eq_some (h : classify name = some (some store)) :
    name = store.bytes ++ narinfoSuffix := by
  obtain ⟨front, hf, hp⟩ := Option.map_eq_some_iff.1 h
  rw [dropSuffix?_eq_some hf, StoreHash.parse_eq_some hp]

theorem narinfoPath_store (h : Holds f entry) :
    narinfoPath entry.store = [entry.narinfoName] := by
  rw [narinfoPath, classify_eq_some h.named]

theorem Applied.get_output (ha : Applied f L live gone h) (name : Bytes) :
    (outputPath name ∈ gone ∧ h.get (outputPath name) = none) ∨
      (outputPath name ∉ gone ∧ h.get (outputPath name) = f.get (outputPath name)) := by
  refine ha.others _ ?_ ?_
  all_goals
    intro hr
    have hf := (cons_prefix_cons.1 hr).1
    revert hf
    decide

theorem Applied.get_narinfo (ha : Applied f L live gone h)
    (hn : (classify name).isSome = true) :
    ([name] ∈ gone ∧ h.get [name] = none) ∨ ([name] ∉ gone ∧ h.get [name] = f.get [name]) := by
  refine ha.others _ ?_ ?_
  all_goals
    intro hr
    have hf := (cons_prefix_cons.1 hr).1
    rw [← hf] at hn
    revert hn
    decide

/-- The scan has found everything there is to select. -/
structure Complete (f : Files) (entries : Fin n → ChunkedEntry) (outputs : Fin b → Orphan) : Prop where
  narinfoFound : ∀ name, (classify name).isSome = true → f.get [name] ≠ none →
    ∃ i, (entries i).narinfoName = name
  outputFound : ∀ name contents, isOutputName name = true →
    f.get (outputPath name) = some (.file contents) →
    (∃ i, (entries i).outputName = some name) ∨ ∃ i, (outputs i).name = name
  outputNamed : ∀ i, isOutputName (outputs i).name = true

theorem outputPath_mem_removedPaths :
    outputPath name ∈ removedPaths entries outputs selected ↔
      name ∈ removedOutputs entries outputs selected := by
  constructor
  · intro hp
    rcases mem_removedPaths hp with ⟨i, -, heq⟩ | ⟨other, ho, heq⟩
    · have hl := congrArg List.length heq
      simp [outputPath, narDirectory, narinfoPath] at hl
    · rw [outputPath_injective heq]
      exact ho
  · intro hn
    exact mem_append_right _ (mem_map_of_mem hn)

theorem mem_liveOutputs : name ∈ liveOutputs entries outputs selected ↔
    (∃ i, i ∉ selected.entries ∧ (entries i).outputName = some name) ∨
      ∃ i, i ∉ selected.outputs ∧ (outputs i).name = name := by
  simp [liveOutputs, retainedEntries, retainedOrphanOutputs]

theorem mem_selectedOutputs : name ∈ selectedOutputs entries outputs selected ↔
    (∃ i ∈ selected.entries, (entries i).outputName = some name) ∨
      ∃ i ∈ selected.outputs, (outputs i).name = name := by
  simp [selectedOutputs]

theorem Applied.weight_outputs
    (ha : Applied f L live (removedPaths entries outputs selected) h)
    (hh : ∀ i, Holds f (entries i)) (hc : Complete f entries outputs) :
    weight h (Tree.within narDirectory fun _ => True) =
      weight f (outputsAt (liveOutputs entries outputs selected)) +
        weight f (Tree.within narDirectory fun name => (!isOutputName name) = true) := by
  have hl : ∀ name ∈ liveOutputs entries outputs selected, isOutputName name = true := by
    intro name hn
    rcases mem_liveOutputs.1 hn with ⟨i, -, hu⟩ | ⟨i, -, rfl⟩
    · exact ((hh i).output name hu).1
    · exact hc.outputNamed i
  have hr : ∀ name ∈ removedOutputs entries outputs selected,
      isOutputName name = true ∧ name ∉ liveOutputs entries outputs selected := by
    intro name hn
    obtain ⟨hs, hd⟩ := mem_filter.1 hn
    refine ⟨?_, of_decide_eq_true hd⟩
    rcases mem_selectedOutputs.1 hs with ⟨i, -, hu⟩ | ⟨i, -, rfl⟩
    · exact ((hh i).output name hu).1
    · exact hc.outputNamed i
  apply Tree.weigh_parts
  · refine Set.disjoint_left.2 fun path hou ht => ?_
    obtain ⟨name, hn, rfl⟩ := hou
    have ho := Tree.mem_within.1 ht
    rw [hl name hn] at ho
    cases ho
  · intro path hp
    rcases hp with ⟨name, -, rfl⟩ | ⟨name, -, rfl⟩
    · exact ⟨_, trivial, rfl⟩
    · exact ⟨_, trivial, rfl⟩
  · intro path hp
    rcases hp with ⟨name, hn, rfl⟩ | ⟨name, hn, rfl⟩
    · rcases ha.get_output name with hg | hk
      · exact absurd hn (hr name (outputPath_mem_removedPaths.1 hg.1)).2
      · exact hk.2
    · rcases ha.get_output name with hg | hk
      · rw [(hr name (outputPath_mem_removedPaths.1 hg.1)).1] at hn
        cases hn
      · exact hk.2
  · intro path hp ho contents hf
    obtain ⟨name, -, rfl⟩ := hp
    rcases ha.get_output name with hg | hk
    · rw [outputPath] at hg
      rw [hg.2] at hf
      cases hf
    · rw [outputPath] at hk
      rw [hk.2] at hf
      have hn : isOutputName name = true := by
        by_contra hn
        exact ho (.inr ⟨name, by simpa using hn, rfl⟩)
      -- an output that the scan has found is removed or live
      have hd : name ∉ liveOutputs entries outputs selected :=
        fun hl => ho (.inl ⟨name, hl, rfl⟩)
      refine hk.1 (outputPath_mem_removedPaths.2 (mem_filter.2 ⟨?_, decide_eq_true hd⟩))
      rw [mem_liveOutputs, not_or] at hd
      rw [mem_selectedOutputs]
      rcases hc.outputFound name contents hn hf with ⟨i, hi⟩ | ⟨i, hi⟩
      · refine .inl ⟨i, ?_, hi⟩
        by_contra hs
        exact hd.1 ⟨i, hs, hi⟩
      · refine .inr ⟨i, ?_, hi⟩
        by_contra hs
        exact hd.2 ⟨i, hs, hi⟩

theorem mem_liveNarinfos : name ∈ liveNarinfos entries selected ↔
    ∃ i, i ∉ selected.entries ∧ (entries i).narinfoName = name := by
  simp [liveNarinfos, retainedEntries]

theorem Applied.weight_narinfos (ha : Applied f L live (removedPaths entries outputs selected) h)
    (hs : Stored f entries manifests outputs) (hm : Complete f entries outputs) (hc : Scanned h remaining) :
    (remaining.map fun entry => entry.narinfoBytes).sum =
      weight f (narinfosAt (liveNarinfos entries selected)) := by
  have hb : (remaining.map fun entry => entry.narinfoBytes).sum =
      weight h (narinfosAt (remaining.map fun entry => entry.narinfoName)) := by
    have hz : (remaining.map fun entry => entry.narinfoBytes) =
        (remaining.map fun entry => entry.narinfoName).map fun name =>
          h.bytesAt List.length [name] := by
      rw [map_map]
      exact map_congr_left fun entry he => (hc.holds entry he).narinfo.bytesAt.symm
    rw [hz, Tree.sum_places (fun name => [name]) hc.distinct fun _ _ => singleton_inj.1]
    rfl
  have hg : ∀ i, [(entries i).narinfoName] ∈ removedPaths entries outputs selected ↔
      i ∈ selected.entries := by
    intro i
    constructor
    · intro hp
      rcases mem_removedPaths hp with ⟨j, hj, heq⟩ | ⟨name, -, heq⟩
      · rw [narinfoPath_store (hs.holds j)] at heq
        rw [hs.distinct i j (singleton_inj.1 heq)]
        exact hj
      · have hle := congrArg List.length heq
        simp [outputPath, narDirectory] at hle
    · intro hi
      rw [← narinfoPath_store (hs.holds i)]
      exact mem_append_left _ (mem_map_of_mem hi)
  have hl : ∀ i, (classify (entries i).narinfoName).isSome = true := by
    intro i
    rw [(hs.holds i).named]
    rfl
  rw [hb]
  refine Tree.weigh_congr (fun path hp => ?_) fun path hp => ?_
  · obtain ⟨name, hn, rfl⟩ := hp
    obtain ⟨entry, he, rfl⟩ := mem_map.1 hn
    have hh := hc.holds entry he
    obtain ⟨contents, hf, -⟩ := hh.narinfo
    have ho : (classify entry.narinfoName).isSome = true := by
      rw [hh.named]
      rfl
    rcases ha.get_narinfo ho with hr | hk
    · rw [hr.2] at hf
      cases hf
    · obtain ⟨i, hi⟩ := hm.narinfoFound entry.narinfoName ho (by
        rw [← hk.2, hf]
        exact Option.some_ne_none _)
      refine .inl ⟨⟨_, mem_liveNarinfos.2 ⟨i, fun hse => hk.1 ?_, hi⟩, rfl⟩, hk.2.symm⟩
      rw [← hi]
      exact (hg i).2 hse
  · obtain ⟨name, hn, rfl⟩ := hp
    obtain ⟨i, ht, rfl⟩ := mem_liveNarinfos.1 hn
    rcases ha.get_narinfo (hl i) with hr | hk
    · exact absurd ((hg i).1 hr.1) ht
    · obtain ⟨contents, hf, -⟩ := (hs.holds i).narinfo
      refine .inl ⟨⟨_, hc.complete _ (hl i) ?_, rfl⟩, hk.2.symm⟩
      rw [hk.2, hf]
      exact Option.some_ne_none _

end Weights

section Pass

variable {sha256 : Bytes → Digest} {start : Files} {reading : Reading} {scanned : List ChunkedEntry}
  {orphans : ChunkedOrphans}

theorem stored_of_scan (hs : Scanned f scanned) (ho : OrphansOf f scanned orphans) :
    Stored f scanned.get orphans.manifests.get orphans.outputs.get where
  holds i := hs.holds _ (scanned.get_mem i)
  distinct i j heq := by
    have hg := inj_on_of_nodup_map hs.distinct (scanned.get_mem i) (scanned.get_mem j) heq
    exact (hs.distinct.of_map _).get_inj_iff.1 hg
  isManifest i := (ho.manifests _ (orphans.manifests.get_mem i)).1
  isOutput i := (ho.outputs _ (orphans.outputs.get_mem i)).1

theorem complete_of_scan (hs : Scanned f scanned) (hr : OrphansOf f scanned orphans) :
    Complete f scanned.get orphans.outputs.get where
  narinfoFound name hn hg := by
    obtain ⟨entry, he, rfl⟩ := mem_map.1 (hs.complete name hn hg)
    obtain ⟨i, rfl⟩ := get_of_mem he
    exact ⟨i, rfl⟩
  outputFound name contents hn hf := by
    rcases hr.outputsComplete name contents hn hf with he | hp
    · obtain ⟨entry, he, ho⟩ := mem_filterMap.1 he
      obtain ⟨i, rfl⟩ := get_of_mem he
      exact .inl ⟨i, ho⟩
    · obtain ⟨output, ho, rfl⟩ := mem_map.1 hp
      obtain ⟨i, rfl⟩ := get_of_mem ho
      exact .inr ⟨i, rfl⟩
  outputNamed i := (hr.outputs _ (orphans.outputs.get_mem i)).2.1

section Selection

variable {selected : ChunkedSelection scanned.length orphans.manifests.length orphans.outputs.length}

variable (scanned orphans selected) in
def keptManifests : List Digest :=
  retainedChunkedManifests scanned.get orphans.manifests.get selected

variable (scanned orphans selected) in
def unlinked : List Path := removedPaths scanned.get orphans.outputs.get selected

/-- What is left weighs what the projection adds up, if that is a number of sixty-four bits. -/
theorem Applied.measured (hs : Scanned f scanned) (ho : OrphansOf f scanned orphans)
    (ha : Applied f (Listed sha256 f (keptManifests scanned orphans selected).dedup)
      (keptManifests scanned orphans selected).dedup (unlinked scanned orphans selected) h)
    (hr : Scanned h remaining) :
    weight h (shardFiles fun _ => True) + (weight h (Tree.within manifestDirectory fun _ => True) +
        (weight h (Tree.within narDirectory fun _ => True) +
          (remaining.map fun entry => entry.narinfoBytes).sum)) =
      weight f (listedFiles sha256 f (keptManifests scanned orphans selected)) +
        (orphans.preservedBytes +
          (weight f (manifestsAt (keptManifests scanned orphans selected)) +
            (weight f (outputsAt (liveOutputs scanned.get orphans.outputs.get selected)) +
              weight f (narinfosAt (liveNarinfos scanned.get selected))))) := by
  have ht := stored_of_scan hs ho
  have hc := complete_of_scan hs ho
  have hl : listedFiles sha256 f (keptManifests scanned orphans selected).dedup =
      listedFiles sha256 f (keptManifests scanned orphans selected) :=
    listedFiles_congr fun _ => mem_dedup
  have hm : manifestsAt (keptManifests scanned orphans selected).dedup =
      manifestsAt (keptManifests scanned orphans selected) := by
    simp only [manifestsAt, mem_dedup]
  rw [ha.weight_chunks, ha.weight_manifests, ha.weight_outputs ht.holds hc,
    ha.weight_narinfos ht hc hr, ho.preserved, ho.preservedChunks, hl, hm]
  omega

end Selection

structure Subtracts (terms : ByteTerms) : Prop where
  le : terms.preserved + terms.retained ≤ terms.physical
  added : terms.added ≠ []

variable {n a b : ℕ} {entries : Fin n → ChunkedEntry} {manifests : Fin a → ChunkManifestFile}
variable {outputs : Fin b → Orphan}

theorem foldlM_checkedAdd {total : ℕ} (h : values ≠ []) : values.foldlM checkedAdd total =
    if total + values.sum ≤ u64Max then some (total + values.sum) else none := by
  induction values generalizing total with
  | nil => exact absurd rfl h
  | cons value values ih =>
    rw [foldlM_cons, sum_cons, ← Nat.add_assoc]
    by_cases hf : total + value ≤ u64Max
    · rw [checkedAdd, if_pos hf]
      cases values with
      | nil => simp [hf]
      | cons next values => exact ih (cons_ne_nil _ _)
    · rw [checkedAdd, if_neg hf, if_neg (by omega)]
      rfl

/-- Without an underflow, only a sum beyond sixty-four bits is refused. -/
def ByteTerms.counted (terms : ByteTerms) (message : String) : Exit StorageError ℕ :=
  let bytes := terms.physical - terms.preserved - terms.retained + terms.added.sum
  if bytes ≤ u64Max then .done bytes else .failed (.invalid message)

theorem Subtracts.exit (h : Subtracts terms) (message : String) (f : Files) (faults : List Fault) :
    (terms.count message f faults).exit = ByteTerms.counted terms message := by
  obtain ⟨hle, hne⟩ := h
  have ht : terms.total = terms.added.foldlM checkedAdd
      (terms.physical - terms.preserved - terms.retained) := by
    rw [ByteTerms.total, checkedSub, if_pos (by omega)]
    simp only [Option.bind_eq_bind, Option.bind_some]
    rw [checkedSub, if_pos (by omega), Option.bind_some]
  rw [ByteTerms.count, ht, foldlM_checkedAdd hne, ByteTerms.counted]
  split_ifs
  · rfl
  · rfl

end Pass

section Sample

def sampleNarinfo : Path := [List.replicate 32 48 ++ narinfoSuffix]

end Sample

end ChunkedOutcome
