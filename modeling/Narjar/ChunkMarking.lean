import Narjar.ChunkSweep

/-!
# The marks of a collection

What each filesystem operation changes, and that marking leaves a mark for exactly the chunks
the live manifests list while it changes nothing outside of the mark directory.
-/
namespace ChunkMarking

open ByteCodecs ManifestFormat ChunkIngest FaultyPrograms FileTree ChunkSweep
open List

section Frames

variable {start : Files}

/-- Nothing changed outside of `p`. -/
def SameOutside (p : Path → Prop) (f g : Files) : Prop := ∀ path, ¬p path → g.get path = f.get path

theorem SameOutside.refl (p : Path → Prop) (f : Files) : SameOutside p f f := fun _ _ => rfl

theorem SameOutside.trans (hfg : SameOutside p f g) (hgh : SameOutside p g h) : SameOutside p f h :=
  fun path hp => (hgh path hp).trans (hfg path hp)

theorem SameOutside.mono (hpq : ∀ path, p path → q path) (hfg : SameOutside p f g) :
    SameOutside q f g := fun path ha => hfg path fun hp => ha (hpq path hp)

theorem SameOutside.single (hp : p path) (hfg : SameOutside (· = path) f g) :
    SameOutside p f g := by
  refine hfg.mono ?_
  intro other ho
  rw [ho]
  exact hp

/-- Whatever happens, the program changes nothing outside of `p`. -/
def Touches {α : Type} (p : Path → Prop) (x : Action α) : Prop :=
  ∀ start, Preserves (SameOutside p start) x

variable {α : Type}

theorem Touches.ofState
    (hx : ∀ f, Triple (· = f) x (fun _ => SameOutside p f) (fun _ => SameOutside p f)
      (SameOutside p f)) : Touches p x := by
  intro start
  apply Triple.ofState
  intro f hf
  exact (hx f).consequence (fun _ => id) (fun _ _ hg => hf.trans hg) (fun _ _ hg => hf.trans hg)
    fun _ hg => hf.trans hg

theorem Touches.mono (hpq : ∀ path, p path → q path) (hx : Touches p x) : Touches q x := by
  refine .ofState fun f => (hx f).consequence (fun g hg => hg ▸ .refl _ _) ?_ ?_ ?_
  · exact fun _ _ hg => hg.mono hpq
  · exact fun _ _ hg => hg.mono hpq
  · exact fun _ hg => hg.mono hpq

end Frames

section Operations

variable {α : Type} {view : Files → Except ChunkStoreError α}

theorem observe_spec :
    Triple (· = f) (observe ioFailure view) (fun a g => g = f ∧ view f = .ok a)
      (fun e g => g = f ∧ (view f = .error e ∨ e = ioFailure)) (· = f) := by
  apply Triple.observe
  · intro g a hg hv
    rw [hg] at hv
    exact ⟨hg, hv⟩
  · intro g e hg hv
    rw [hg] at hv
    exact ⟨hg, .inl hv⟩
  · intro g hg
    exact ⟨hg, .inr rfl⟩
  · exact fun g hg => hg

theorem lookup_spec (hm : ∀ e, view f = .error e → ioKind e = some .notFound → f.get path = none) :
    Triple (· = f) (observe ioFailure view) (fun a g => g = f ∧ view f = .ok a)
      (fun e g => g = f ∧ (ioKind e = some .notFound → f.get path = none)) (· = f) := by
  refine observe_spec.relax ?_ fun _ => id
  intro e g hg
  refine ⟨hg.1, fun hk => ?_⟩
  rcases hg.2 with hv | hio
  · exact hm e hv hk
  · rw [hio] at hk
    cases hk

theorem openDirectoryAt_spec :
    Triple (· = f) (openDirectoryAt path) (fun _ g => g = f ∧ f.get path = some .directory)
      (fun e g => g = f ∧ (ioKind e = some .notFound → f.get path = none)) (· = f) := by
  refine (lookup_spec ?_).weaken ?_
  · intro e hv hk
    split at hv <;> cases hv
    all_goals first | assumption | cases hk
  · intro _ g hg
    obtain ⟨hs, hv⟩ := hg
    split at hv <;> cases hv
    exact ⟨hs, by assumption⟩

theorem openRegularAt_spec :
    Triple (· = f) (openRegularAt path)
      (fun contents g => g = f ∧ f.get path = some (.file contents))
      (fun e g => g = f ∧ (ioKind e = some .notFound → f.get path = none)) (· = f) := by
  refine (lookup_spec ?_).weaken ?_
  · intro e hv hk
    split at hv <;> cases hv
    all_goals first | assumption | cases hk
  · intro contents g hg
    obtain ⟨hs, hv⟩ := hg
    split at hv <;> cases hv
    exact ⟨hs, by assumption⟩

theorem entryIsRegularAt_spec :
    Triple (· = f) (entryIsRegularAt path)
      (fun regular g => g = f ∧ f.get path ≠ none ∧
        (regular = true ↔ ∃ contents, f.get path = some (.file contents)))
      (fun e g => g = f ∧ (ioKind e = some .notFound → f.get path = none)) (· = f) := by
  refine (lookup_spec ?_).weaken ?_
  · intro e hv hk
    split at hv <;> cases hv
    assumption
  · intro regular g hg
    obtain ⟨hs, hv⟩ := hg
    refine ⟨hs, ?_⟩
    split at hv <;> cases hv
    · simp_all
    · simp_all

theorem readDirNames_spec :
    Triple (· = f) (readDirNames directory) (fun names g => g = f ∧ names = f.names directory)
      (fun _ g => g = f) (· = f) := by
  refine observe_spec.consequence (fun _ => id) ?_ (fun _ _ hg => hg.1) fun _ => id
  intro names g hg
  exact ⟨hg.1, (Except.ok.inj hg.2).symm⟩

theorem unlinkAt_spec :
    Triple (· = f) (unlinkAt path) (fun _ g => g.get path = none ∧ SameOutside (· = path) f g)
      (fun e g => g = f ∧ (ioKind e = some .notFound → f.get path = none)) (· = f) := by
  apply Triple.operation
  · intro g _ g' hg ha
    rw [hg] at ha
    have ho : f.get path ≠ some .directory ∧ g' = f.discard (· == path) := by
      split at ha <;> cases ha
      rename_i he ht
      rw [ht]
      exact ⟨fun hd => he (Option.some.inj hd), rfl⟩
    rw [ho.2]
    refine ⟨Tree.get_discard_of_gone (beq_self_eq_true path) ho.1, ?_⟩
    intro other hh
    exact Tree.get_discard_of_kept (beq_eq_false_iff_ne.2 hh)
  · intro g e hg ha
    rw [hg] at ha
    refine ⟨hg, fun hk => ?_⟩
    split at ha
    · cases ha
      cases hk
    · cases ha
    · assumption
  · exact fun _ hg => ⟨hg, fun hk => by cases hk⟩
  · exact fun _ hg => hg

theorem createNewAt_spec :
    Triple (· = f) (createNewAt path)
      (fun _ g => f.get path = none ∧ g.get path = some (.file []) ∧ SameOutside (· = path) f g)
      (fun e g => g = f ∧ (ioKind e = some .alreadyExists → f.get path ≠ none)) (· = f) := by
  apply Triple.operation
  · intro g _ g' hg ha
    rw [hg] at ha
    split_ifs at ha with hv
    cases ha
    exact ⟨hv.1, Tree.get_create_self, fun other ho => Tree.get_create_of_ne ho⟩
  · intro g e hg ha
    rw [hg] at ha
    refine ⟨hg, ?_⟩
    split_ifs at ha with hv hn
    · cases ha
      intro hk
      cases hk
    · exact fun _ => hn
  · intro g hg
    refine ⟨hg, ?_⟩
    intro hk
    cases hk
  · exact fun _ hg => hg

theorem makeDirectoryAt_spec :
    Triple (· = f) (makeDirectoryAt path) (fun _ g => SameOutside (· = path) f g)
      (fun _ g => g = f) (· = f) := by
  apply Triple.operation
  · intro g _ g' hg ha
    rw [hg] at ha
    split_ifs at ha with hv hn
    · cases ha
      exact fun other ho => Tree.get_create_of_ne ho
    · cases ha
      exact .refl _ _
  · exact fun _ _ hg _ => hg
  · exact fun _ hg => hg
  · exact fun _ hg => hg

theorem syncAll_spec : Triple (· = f) syncAll (fun _ g => g = f) (fun _ g => g = f) (· = f) := by
  apply Triple.operation
  · intro g _ g' hg ha
    cases ha
    exact hg
  · exact fun _ _ hg _ => hg
  · exact fun _ hg => hg
  · exact fun _ hg => hg

end Operations

section Touching

variable {α β : Type} {hash : Digest}

theorem touches_pure : Touches p (pure a) := fun _ => .pure

theorem touches_stop : Touches p (stop e : Action α) := fun _ => .stop

theorem touches_observe :
    Touches p (observe ioFailure view) := fun _ => .observe

theorem Touches.bind (hx : Touches p x) (hk : ∀ a, Touches p (k a)) :
    Touches p (x >>= k) := fun start => .bind (hx start) fun a => hk a start

theorem Touches.attempt (hx : Touches p x) : Touches p (attempt x) :=
  fun start => .attempt (hx start)

theorem Touches.foldEach {ι : Type} {body : β → ι → Action β} {items : List ι} {b : β}
    (h : ∀ b, ∀ x ∈ items, Touches p (body b x)) : Touches p (foldEach body b items) :=
  fun start => .foldEach fun b x hx => h b x hx start

theorem Touches.handle
    (hx : Touches p x) (hok : ∀ a, Touches p (onOk a)) (he : ∀ e, Touches p (onError e)) :
    Touches p (handle x onOk onError) :=
  fun start => .handle (hx start) (fun a => hok a start) fun e => he e start

theorem Touches.ite {c : Prop} [Decidable c] (hx : Touches p x) (hy : Touches p y) :
    Touches p (if c then x else y) := by
  split_ifs
  · exact hx
  · exact hy

theorem touches_unlinkAt (hp : p path) : Touches p (unlinkAt path) := by
  apply Touches.ofState
  intro f
  refine unlinkAt_spec.consequence (fun _ => id) ?_ ?_ ?_
  · exact fun _ g hg => hg.2.single hp
  · exact fun _ g hg => hg.1 ▸ .refl _ _
  · exact fun g hg => hg ▸ .refl _ _

theorem touches_createNewAt (hp : p path) : Touches p (createNewAt path) := by
  apply Touches.ofState
  intro f
  refine createNewAt_spec.consequence (fun _ => id) ?_ ?_ ?_
  · exact fun _ g hg => hg.2.2.single hp
  · exact fun _ g hg => hg.1 ▸ .refl _ _
  · exact fun g hg => hg ▸ .refl _ _

theorem touches_makeDirectoryAt (hp : p path) : Touches p (makeDirectoryAt path) := by
  apply Touches.ofState
  intro f
  refine makeDirectoryAt_spec.consequence (fun _ => id) ?_ ?_ ?_
  · exact fun _ g hg => hg.single hp
  · exact fun _ g hg => hg ▸ .refl _ _
  · exact fun g hg => hg ▸ .refl _ _

theorem touches_syncAll : Touches p syncAll := by
  apply Touches.ofState
  intro f
  exact syncAll_spec.consequence (fun _ => id) (fun _ g hg => hg ▸ .refl _ _)
    (fun _ g hg => hg ▸ .refl _ _) fun g hg => hg ▸ .refl _ _

theorem touches_ensureDirectoryAt (hp : p path) : Touches p (ensureDirectoryAt path) :=
  .handle touches_observe (fun _ => touches_pure) fun _ =>
    .ite (.bind (touches_makeDirectoryAt hp) fun _ => touches_observe) touches_stop

theorem touches_markGcFile (hp : p path) : Touches p (markGcFile path) :=
  .handle (touches_createNewAt hp) (fun _ => touches_pure) fun _ => .ite touches_pure touches_stop

theorem touches_gcMarkerExists : Touches p (gcMarkerExists path) :=
  .handle touches_observe (fun _ => touches_pure) fun _ => .ite touches_pure touches_stop

theorem touches_openManifest : Touches p (openManifest hash) :=
  .handle touches_observe (fun _ => touches_pure) fun _ => .ite touches_pure touches_stop

theorem touches_markLiveChunk (hp : ∀ rest, p (gcMarkDirectory ++ (shardName hash :: rest))) :
    Touches p (markLiveChunk hash) :=
  .bind (touches_ensureDirectoryAt (hp [])) fun _ => touches_markGcFile (hp [chunkName hash])

end Touching

section Clearing

def Unlinked (f : Files) (gone : List Path) (g : Files) : Prop :=
  ∀ path, (path ∈ gone ∧ g.get path = none) ∨ (path ∉ gone ∧ g.get path = f.get path)

theorem Unlinked.refl (f : Files) : Unlinked f [] f := fun _ => .inr ⟨not_mem_nil, rfl⟩

theorem Unlinked.same (h : Unlinked f gone g) : SameOutside (· ∈ gone) f g := by
  intro path hp
  rcases h path with ho | hk
  · exact absurd ho.1 hp
  · exact hk.2

theorem Unlinked.sameOutside (h : Unlinked f gone g) (hg : ∀ path ∈ gone, directory <+: path) :
    SameOutside (directory <+: ·) f g := fun path hp => h.same path fun hm => hp (hg path hm)

theorem Unlinked.unlink (hg : Unlinked f gone g) (hn : h.get path = none)
    (hr : SameOutside (· = path) g h) : Unlinked f (gone ++ [path]) h := by
  intro other
  by_cases ho : other = path
  · rw [ho]
    exact .inl ⟨mem_append_right _ (mem_singleton_self path), hn⟩
  · rw [hr other ho, mem_append, mem_singleton]
    exact (hg other).imp (fun h => ⟨.inl h.1, h.2⟩) fun h => ⟨not_or.2 ⟨h.1, ho⟩, h.2⟩

theorem Unlinked.missing (hg : Unlinked f gone g) (hn : g.get path = none) :
    Unlinked f (gone ++ [path]) g := hg.unlink hn fun _ _ => rfl

theorem clearGcMarkFiles_spec :
    Triple (· = f) (clearGcMarkFiles directory)
      (fun _ g => SameOutside (directory <+: ·) f g ∧ ∀ path, directory <+: path →
        g.get path = none ∨ (g.get path = some .directory ∧ f.get path = some .directory))
      (fun _ => SameOutside (directory <+: ·) f) (SameOutside (directory <+: ·) f) := by
  have hb : ∀ done rest : List (Path × Entry Bytes), f.below directory = done ++ rest →
      ∀ path ∈ done.map Prod.fst, directory <+: path := by
    intro done rest hl path hp
    obtain ⟨entry, hn, hf⟩ := mem_map.1 hp
    have hm : (entry.1, entry.2) ∈ f.below directory := by
      rw [hl]
      exact mem_append_left _ hn
    rw [← hf]
    exact (f.mem_below.1 hm).1
  refine .bind (observe_spec.relax ?_ ?_) ?_
  · exact fun _ g hg => hg.1 ▸ .refl _ _
  · exact fun g hg => hg ▸ .refl _ _
  intro found
  refine Triple.consequence (A := fun g => Unlinked f [] g ∧ found = f.below directory)
    (B := fun _ g => Unlinked f (found.map Prod.fst) g ∧ found = f.below directory) ?_ ?_ ?_
    (fun _ _ => id) fun _ => id
  · -- One round: the file is unlinked, or the pass stops before it.
    refine .forEach (K := fun done g =>
      Unlinked f (done.map Prod.fst) g ∧ found = f.below directory) ?_
    intro done entry rest hi
    apply Triple.ofState
    intro g hg
    have hs := hg.1.sameOutside (hb done (entry :: rest) (hg.2 ▸ hi))
    have hu : Triple (· = g) (unlinkAt entry.1)
        (fun _ h => Unlinked f ((done ++ [entry]).map Prod.fst) h ∧ found = f.below directory)
        (fun _ => SameOutside (directory <+: ·) f) (SameOutside (directory <+: ·) f) := by
      refine unlinkAt_spec.consequence (fun _ => id) ?_ ?_ ?_
      · intro _ h hh
        rw [map_append]
        exact ⟨hg.1.unlink hh.1 hh.2, hg.2⟩
      · exact fun _ h hh => hh.1 ▸ hs
      · exact fun h hh => hh ▸ hs
    cases hn : entry.2 with
    | file | directory | pipe => simpa only [hn] using hu
    | unopenable => simpa only [hn] using .stop fun h hh => hh ▸ hs
  · intro g hg
    rw [hg.1]
    exact ⟨fun path => .inr ⟨not_mem_nil, rfl⟩, (Except.ok.inj hg.2).symm⟩
  · intro _ g hg
    refine ⟨hg.1.sameOutside (hb found [] (by rw [hg.2, append_nil])), ?_⟩
    intro path hp
    rcases hg.1 path with ho | hk
    · exact .inl ho.2
    · rw [hk.2]
      cases ht : f.get path with
      | none => exact .inl rfl
      | some e =>
        by_cases he : e = .directory
        · rw [he]
          exact .inr ⟨rfl, rfl⟩
        · refine absurd ?_ hk.1
          rw [hg.2]
          exact mem_map_of_mem (f := Prod.fst) (f.mem_below.2 ⟨hp, ht, he⟩)

theorem touches_clearGcMarkFiles : Touches (directory <+: ·) (clearGcMarkFiles directory) :=
  .ofState fun _ => clearGcMarkFiles_spec.weaken fun _ _ hg => hg.1

end Clearing

section Marks

variable {hash : Digest}

structure IsChunkPlace (shard name : Bytes) : Prop where
  shard : isChunkShardName shard = true
  name : isChunkName name = true

/-- No directory stands where a chunk's mark would be. -/
def CleanMarks (f : Files) : Prop :=
  ∀ shard name, IsChunkPlace shard name →
    f.get (gcMarkDirectory ++ [shard, name]) ≠ some .directory

/-- The mark directory marks exactly the chunks in `L`. -/
def MarkState (L : Bytes → Bytes → Prop) (f : Files) : Prop :=
  ∀ shard name, IsChunkPlace shard name →
    (L shard name ∧ f.get (gcMarkDirectory ++ [shard, name]) = some (.file [])) ∨
      (¬L shard name ∧ f.get (gcMarkDirectory ++ [shard, name]) = none)

theorem MarkState.congr (h : MarkState L f) (hLM : ∀ shard name, M shard name ↔ L shard name) :
    MarkState M f := by
  intro shard name hs
  rw [hLM]
  exact h shard name hs

theorem MarkState.cleanMarks (h : MarkState L f) : CleanMarks f := by
  intro shard name hs hd
  rcases h shard name hs with hm | hu
  · rw [hm.2] at hd
    cases hd
  · rw [hu.2] at hd
    cases hd

variable {α : Type}

theorem MarkState.of_sameOutside (h : MarkState L f) (hfg : SameOutside p f g)
    (hp : ∀ shard name, isChunkShardName shard = true → ¬p (gcMarkDirectory ++ [shard, name])) :
    MarkState L g := by
  intro shard name hs
  rw [hfg _ (hp shard name hs.shard)]
  exact h shard name hs

theorem Touches.markState (hx : Touches p x)
    (hp : ∀ shard name, isChunkShardName shard = true → ¬p (gcMarkDirectory ++ [shard, name])) :
    Preserves (MarkState L) x := by
  apply Triple.ofState
  intro f hf
  exact (hx f).consequence (fun g hg => hg ▸ .refl _ _) (fun _ _ hg => hf.of_sameOutside hg hp)
    (fun _ _ hg => hf.of_sameOutside hg hp) fun _ hg => hf.of_sameOutside hg hp

theorem shard_path_ne : gcMarkDirectory ++ [shard, name] ≠ gcMarkDirectory ++ [shard'] := by
  intro h
  have ht := append_cancel_left h
  simp at ht

theorem markGcFile_marks :
    Returns (MarkState L) (markGcFile (gcMarkDirectory ++ [shard, name]))
      (fun _ => MarkState fun s n => L s n ∨ (s = shard ∧ n = name)) := by
  apply Triple.ofState
  intro f hf
  refine .handle (createNewAt_spec.relax (fun _ _ => id)
    fun _ _ => trivial) ?_ ?_
  · -- The mark is new.
    intro _
    apply Triple.pure
    intro g hg s n hs
    obtain ⟨-, ha, hr⟩ := hg
    by_cases hsn : s = shard ∧ n = name
    · rw [hsn.1, hsn.2]
      exact .inl ⟨.inr ⟨rfl, rfl⟩, ha⟩
    · have hne : gcMarkDirectory ++ [s, n] ≠ gcMarkDirectory ++ [shard, name] := by
        intro h
        have ht := append_cancel_left h
        simp only [List.cons.injEq, and_true] at ht
        exact hsn ht
      rw [hr _ hne]
      simpa only [hsn, or_false] using hf s n hs
  · -- The mark was there, so its chunk was listed before.
    intro e
    split_ifs with hk
    · apply Triple.pure
      intro g hg s n hs
      rw [hg.1]
      by_cases hsn : s = shard ∧ n = name
      · have hh := hg.2 hk
        rw [← hsn.1, ← hsn.2] at hh
        rcases hf s n hs with hm | hu
        · exact .inl ⟨.inl hm.1, hm.2⟩
        · exact absurd hu.2 hh
      · simpa only [hsn, or_false] using hf s n hs
    · exact .stop fun _ _ => trivial

theorem markLiveChunk_marks :
    Returns (MarkState L) (markLiveChunk hash)
      (fun _ => MarkState fun s n => L s n ∨ (s = shardName hash ∧ n = chunkName hash)) := by
  have he : Preserves (MarkState L) (ensureDirectoryAt (gcMarkDirectory ++ [shardName hash])) :=
    (touches_ensureDirectoryAt (p := (· = gcMarkDirectory ++ [shardName hash])) rfl).markState
      fun _ _ _ => shard_path_ne
  exact .bind (Triple.onSuccess he) fun _ => markGcFile_marks

def Lists (ds : List ChunkDescriptor) (shard name : Bytes) : Prop :=
  ∃ d ∈ ds, shard = shardName d.hash ∧ name = chunkName d.hash

/-- `next_record` returns these records one after the other. -/
inductive Reads : ManifestReader → List ChunkDescriptor → ManifestReader → Prop
  | nil (r : ManifestReader) : Reads r [] r
  | cons {r r₁ r₂ : ManifestReader} {d : ChunkDescriptor} {ds : List ChunkDescriptor} :
    r.nextRecord = .ok (some d, r₁) → Reads r₁ ds r₂ → Reads r (d :: ds) r₂

theorem readManifest_spec :
    Returns P (readManifest result) (fun a g => P g ∧ result = .ok a) := by
  apply Triple.observe
  · intro f a hf hv
    exact ⟨hf, FallibleState.mapError_ok.1 hv⟩
  · exact fun _ _ _ _ => trivial
  · exact fun _ _ => trivial
  · exact fun _ _ => trivial

theorem markRecords_marks (rounds : ℕ) (r : ManifestReader) :
    Returns (MarkState L) (markRecords rounds r)
      (fun r' f => ∃ ds, Reads r ds r' ∧ (r.recordsRemaining < rounds → r'.recordsRemaining = 0) ∧
        MarkState (fun s n => L s n ∨ Lists ds s n) f) := by
  induction rounds generalizing r L with
  | zero =>
    apply Triple.pure
    intro f hf
    refine ⟨[], .nil r, fun h => absurd h (Nat.not_lt_zero _), hf.congr fun s n => ?_⟩
    simp [Lists]
  | succ rounds ih =>
    refine .bind readManifest_spec ?_
    intro result
    obtain ⟨record, r₁⟩ := result
    cases record with
    | none =>
      apply Triple.pure
      intro f hf
      obtain ⟨hz, rfl⟩ := nextRecord_none.1 hf.2
      refine ⟨[], .nil _, fun _ => hz, hf.1.congr fun s n => ?_⟩
      simp [Lists]
    | some d =>
      apply Triple.ofState
      intro f hf
      refine .bind (markLiveChunk_marks.strengthen fun g hg => hg ▸ hf.1) ?_
      intro _
      refine (ih r₁).weaken ?_
      intro r' g hg
      obtain ⟨ds, hr, he, hm⟩ := hg
      refine ⟨d :: ds, .cons hf.2 hr, ?_, hm.congr fun s n => ?_⟩
      · intro ho
        obtain ⟨hp, -, -, -, ha⟩ := nextRecord_some.1 hf.2
        apply he
        rw [ha, ManifestReader.advance]
        simp only
        omega
      · simp only [Lists, exists_mem_cons_iff, or_assoc]

end Marks

section Listing

variable (sha256 : Bytes → Digest) (start : Files)

/-- The manifest of `hash` in the store is complete and lists a chunk at this place. -/
def ListedBy (hash : Digest) (shard name : Bytes) : Prop :=
  ∃ file reader ds, start.get (manifestDirectory ++ [manifestName hash]) = some (.file file) ∧
    ManifestReader.new file maxChunkManifestBytes = .ok reader ∧ Continues sha256 reader ds ∧
    Lists ds shard name

def Listed (liveManifests : List Digest) (shard name : Bytes) : Prop :=
  ∃ hash ∈ liveManifests, ListedBy sha256 start hash shard name

variable {sha256 start} {hash : Digest}

theorem continues_unique (h : Continues sha256 r ds)
    (h' : Continues sha256 r ds') : ds = ds' := by
  induction ds generalizing r ds' with
  | nil =>
    have hl := continues_length h'
    rw [h.1, length_eq_zero_iff] at hl
    exact hl.symm
  | cons d ds ih =>
    cases ds' with
    | nil => exact absurd h'.1 h.1
    | cons d' ds' =>
      have hn := (continues_nextRecord h).symm.trans (continues_nextRecord h')
      simp only [Except.ok.injEq, Prod.mk.injEq, Option.some.injEq] at hn
      obtain ⟨rfl, -⟩ := hn
      rw [ih h.2.2.2.2 h'.2.2.2.2]

/-- What the loop has read and the checks at the end make up the listing of the manifest. -/
theorem Reads.continues (h : Reads r ds r') (he : Continues sha256 r' []) :
    Continues sha256 r ds := by
  induction h with
  | nil r => exact he
  | cons hn hr ih =>
    obtain ⟨hp, hi, hm, hf, rfl⟩ := nextRecord_some.1 hn
    exact ⟨hp, hi, hm, hf, ih he⟩

theorem openManifest_spec :
    Returns P (openManifest hash)
      (fun file g => P g ∧ ∀ contents, file = some contents →
        g.get (manifestDirectory ++ [manifestName hash]) = some (.file contents)) := by
  apply Triple.ofState
  intro f hf
  refine .handle (openRegularAt_spec.relax (fun _ _ => id)
    fun _ _ => trivial) ?_ ?_
  · intro contents
    apply Triple.pure
    intro g hg
    rw [hg.1]
    refine ⟨hf, fun other ho => ?_⟩
    rw [← Option.some.inj ho]
    exact hg.2
  · intro e
    split_ifs
    · apply Triple.pure
      intro g hg
      rw [hg.1]
      refine ⟨hf, fun other ho => ?_⟩
      cases ho
    · exact .stop fun _ _ => trivial

theorem manifest_not_marked : ¬gcMarkDirectory <+: manifestDirectory ++ [manifestName hash] := by
  intro h
  have hf := (cons_prefix_cons.1 h).1
  revert hf
  decide

theorem touches_markRecords
    (hp : ∀ hash rest, p (gcMarkDirectory ++ (shardName hash :: rest))) (rounds : ℕ)
    (r : ManifestReader) : Touches p (markRecords rounds r) := by
  induction rounds generalizing r with
  | zero => exact touches_pure
  | succ rounds ih =>
    refine .bind touches_observe ?_
    intro result
    obtain ⟨record, r₁⟩ := result
    cases record with
    | none => exact touches_pure
    | some d => exact .bind (touches_markLiveChunk (hp d.hash)) fun _ => ih r₁

theorem touches_markLiveManifest : Touches (gcMarkDirectory <+: ·) (markLiveManifest sha256 hash) := by
  have hp : gcMarkDirectory <+: gcManifestMarkDirectory ++ [manifestName hash] :=
    (prefix_append _ _).trans (prefix_append _ _)
  refine .bind touches_observe fun _ => .bind (touches_markGcFile hp) fun _ =>
    .bind touches_openManifest ?_
  intro file
  cases file with
  | none => exact touches_stop
  | some file =>
    have hs : ∀ hash rest, gcMarkDirectory <+: gcMarkDirectory ++ (shardName hash :: rest) :=
      fun _ _ => prefix_append _ _
    exact .bind touches_observe fun _ => .bind (touches_markRecords hs _ _) fun _ => touches_observe

theorem manifest_mark_ne (hs : isChunkShardName shard = true) :
    gcMarkDirectory ++ [shard, name] ≠ gcManifestMarkDirectory ++ [manifestName hash] := by
  intro h
  rw [gcManifestMarkDirectory, append_assoc, singleton_append] at h
  have ht := append_cancel_left h
  rw [(List.cons.inj ht).1] at hs
  revert hs
  decide

theorem markLiveManifest_marks :
    Returns (fun f => MarkState L f ∧ SameOutside (gcMarkDirectory <+: ·) start f)
      (markLiveManifest sha256 hash)
      (fun _ f => MarkState (fun s n => L s n ∨ ListedBy sha256 start hash s n) f) := by
  let I : Files → Prop := fun f => MarkState L f ∧ SameOutside (gcMarkDirectory <+: ·) start f
  have ho : Returns I (openDirectoryAt gcManifestMarkDirectory) (fun _ => I) :=
    Triple.observe (fun _ _ hs _ => hs) (fun _ _ _ _ => trivial) (fun _ _ => trivial)
      fun _ _ => trivial
  have hm : Returns I (markGcFile (gcManifestMarkDirectory ++ [manifestName hash])) (fun _ => I) := by
    have hp : gcMarkDirectory <+: gcManifestMarkDirectory ++ [manifestName hash] :=
      (prefix_append _ _).trans (prefix_append _ _)
    have hk : Preserves (MarkState L) (markGcFile (gcManifestMarkDirectory ++ [manifestName hash])) :=
      (touches_markGcFile (p := (· = gcManifestMarkDirectory ++ [manifestName hash])) rfl).markState
        fun _ _ hh => manifest_mark_ne hh
    exact (Triple.and hk (touches_markGcFile hp start)).onSuccess
  refine .bind ho fun _ => .bind hm fun _ => .bind openManifest_spec ?_
  intro file
  cases file with
  | none => exact .stop fun _ _ => trivial
  | some file =>
    refine .bind readManifest_spec ?_
    intro reader
    apply Triple.ofState
    intro f hf
    obtain ⟨⟨⟨ha, hsa⟩, hi⟩, hn⟩ := hf
    have ht : start.get (manifestDirectory ++ [manifestName hash]) = some (.file file) := by
      rw [← hsa _ manifest_not_marked]
      exact hi file rfl
    refine .bind ((markRecords_marks _ reader).strengthen fun g hg => hg ▸ ha) ?_
    intro reader'
    refine readManifest_spec.weaken ?_
    intro _ g hg
    obtain ⟨⟨ds, he, hu, hli⟩, hfi⟩ := hg
    have hz : reader'.recordsRemaining = 0 := hu (Nat.lt_succ_self _)
    obtain ⟨rest, hr⟩ := finishRemaining_ok.1 hfi
    have hni : rest = [] := length_eq_zero_iff.1 ((continues_length hr).trans hz)
    rw [hni] at hr
    have hds : Continues sha256 reader ds := he.continues hr
    refine hli.congr fun s n => or_congr_right ?_
    constructor
    · intro h
      obtain ⟨file', reader', ds', ht', hn', hds', hl⟩ := h
      cases ht.symm.trans ht'
      cases hn.symm.trans hn'
      rw [continues_unique hds hds']
      exact hl
    · intro hl
      exact ⟨file, reader, ds, ht, hn, hds, hl⟩

theorem prefix_gcManifestMarkDirectory : gcMarkDirectory <+: gcManifestMarkDirectory :=
  prefix_append _ _

theorem touches_prepareGcMarks : Touches (gcMarkDirectory <+: ·) prepareGcMarks :=
  .bind (touches_ensureDirectoryAt prefix_rfl) fun _ =>
    .bind touches_clearGcMarkFiles fun _ => touches_ensureDirectoryAt prefix_gcManifestMarkDirectory

theorem touches_markRetainedManifests :
    Touches (gcMarkDirectory <+: ·) (markRetainedManifests sha256 liveManifests) :=
  .bind touches_prepareGcMarks fun _ =>
    .handle (.foldEach fun _ _ _ => touches_markLiveManifest) (fun _ => touches_pure) fun _ =>
      .bind touches_clearGcMarkFiles.attempt fun _ => touches_stop

theorem prepareGcMarks_marks :
    Returns CleanMarks prepareGcMarks (fun _ => MarkState fun _ _ => False) := by
  have hr : ∀ shard name, gcMarkDirectory ++ [shard, name] ≠ gcMarkDirectory := by
    intro shard name h
    have hl := congrArg List.length h
    simp at hl
  have hm : ∀ shard name, gcMarkDirectory ++ [shard, name] ≠ gcManifestMarkDirectory :=
    fun _ _ => shard_path_ne
  have he : Preserves CleanMarks (ensureDirectoryAt gcMarkDirectory) := by
    apply Triple.ofState
    intro f hf
    have hc : ∀ g, SameOutside (· = gcMarkDirectory) f g → CleanMarks g := by
      intro g hg shard name hs
      rw [hg _ (hr shard name)]
      exact hf shard name hs
    exact (touches_ensureDirectoryAt (p := (· = gcMarkDirectory)) rfl f).consequence
      (fun g hg => hg ▸ .refl _ _) (fun _ => hc) (fun _ => hc) hc
  refine .bind (Triple.onSuccess he) fun _ =>
    .bind (Q := fun _ => MarkState fun _ _ => False) ?_ fun _ => ?_
  · apply Triple.ofState
    intro f hf
    refine clearGcMarkFiles_spec.consequence (fun _ => id) ?_ (fun _ _ _ => trivial)
      fun _ _ => trivial
    intro _ g hg shard name hs
    refine .inr ⟨id, ?_⟩
    rcases hg.2 _ (prefix_append _ _) with hn | hd
    · exact hn
    · exact absurd hd.2 (hf shard name hs)
  · have hk : Preserves (MarkState fun _ _ => False) (ensureDirectoryAt gcManifestMarkDirectory) :=
      (touches_ensureDirectoryAt (p := (· = gcManifestMarkDirectory)) rfl).markState
        fun shard name _ => hm shard name
    exact Triple.onSuccess hk

theorem markRetainedManifests_marks (hc : CleanMarks start) :
    Returns (· = start) (markRetainedManifests sha256 liveManifests)
      (fun _ f => MarkState (Listed sha256 start liveManifests) f ∧
        SameOutside (gcMarkDirectory <+: ·) start f) := by
  let K : List Digest → Files → Prop := fun done f =>
    MarkState (Listed sha256 start done) f ∧ SameOutside (gcMarkDirectory <+: ·) start f
  have hp : Returns (· = start) prepareGcMarks (fun _ => K []) := by
    refine (Triple.and prepareGcMarks_marks (touches_prepareGcMarks start)).consequence ?_ ?_
      (fun _ _ _ => trivial) fun _ _ => trivial
    · intro f hf
      rw [hf]
      exact ⟨hc, .refl _ _⟩
    · intro _ f hf
      exact ⟨hf.1.congr fun s n => by simp [Listed], hf.2⟩
  have hl : Returns (K []) (forEach liveManifests (markLiveManifest sha256))
      (fun _ => K liveManifests) := by
    apply Triple.forEach
    intro done hash rest _
    have ho : Returns (K done) (markLiveManifest sha256 hash)
        (fun _ => MarkState fun s n => Listed sha256 start done s n ∨ ListedBy sha256 start hash s n) := markLiveManifest_marks
    refine (ho.and (touches_markLiveManifest start)).consequence ?_ ?_ (fun _ _ _ => trivial)
      fun _ _ => trivial
    · exact fun f hf => ⟨hf, hf.2⟩
    · intro _ f hf
      refine ⟨hf.1.congr fun s n => ?_, hf.2⟩
      simp [Listed, or_and_right, exists_or]
  refine .bind hp fun _ => .handle hl (fun _ => .pure fun _ hf => hf) fun _ => ?_
  refine .bind (Q := fun _ _ => True) ?_ fun _ => .stop fun _ _ => trivial
  refine .attempt (Triple.ofState fun f _ => ?_)
  exact clearGcMarkFiles_spec.onSuccess.weaken fun _ _ _ => trivial

end Listing

end ChunkMarking
