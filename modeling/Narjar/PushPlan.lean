import Narjar.DependencyLayers
import Narjar.NarInfo

/-!
# The plan of a push

The paths of a push are uploaded in waves. The planner counts for every path the references that
are still open, takes the paths without one as a wave, and lowers the counts of the paths that
refer to it. References are followed by store hash; a path may refer to itself.
-/
namespace Push

open ByteCodecs DependencyLayers FallibleState NarInfo ObjectNames

variable {Key Signature : Type} {E : Externals Key Signature}

inductive PlanError where
  | duplicateStorePath
  | missingReference (storePath reference : Bytes)
  | lostReadyMetadata
  | lostDependent
  | duplicateEdge
  | cyclicReferences
  deriving DecidableEq

def stores (infos : List (NarInfoMetadata E)) : List StoreHash :=
  infos.map fun info => info.claims.store

/-- The map by store hash, as the list of its values in the order of the keys. -/
def insertByPath (byPath : List (NarInfoMetadata E)) (info : NarInfoMetadata E) :
    Except PlanError (List (NarInfoMetadata E)) :=
  if info.claims.store ∈ stores byPath then .error .duplicateStorePath
  else .ok (byPath.orderedInsert (fun a b => a.claims.store.bytes ≤ b.claims.store.bytes) info)

structure Degrees where
  indegree : StoreHash → Option ℕ
  dependents : StoreHash → List StoreHash

def countReference (byPath : List (NarInfoMetadata E)) (info : NarInfoMetadata E) (d : Degrees)
    (reference : NixStorePath) : Except PlanError Degrees :=
  let store := info.claims.store
  if reference.store = store then .ok d
  else if reference.store ∈ stores byPath then
    .ok { indegree := Function.update d.indegree store ((d.indegree store).map (· + 1))
          dependents := Function.update d.dependents reference.store
            (d.dependents reference.store ++ [store]) }
  else .error (.missingReference info.claims.storePath.asStr reference.asStr)

def countReferences (byPath : List (NarInfoMetadata E)) : Except PlanError Degrees :=
  byPath.foldlM (fun d info => info.claims.references.foldlM (countReference byPath info) d)
    ⟨fun store => if store ∈ stores byPath then some 0 else none, fun _ => []⟩

structure Planner (E : Externals Key Signature) where
  ready : List StoreHash
  metadata : List (NarInfoMetadata E)
  indegree : StoreHash → Option ℕ
  waves : List (List (NarInfoMetadata E))

def takeReady : List StoreHash → List (NarInfoMetadata E) →
    Except PlanError (List (NarInfoMetadata E) × List (NarInfoMetadata E))
  | [], metadata => .ok ([], metadata)
  | store :: ready, metadata =>
    match metadata.find? fun info => info.claims.store = store with
    | none => .error .lostReadyMetadata
    | some info => do
      let (wave, rest) ←
        takeReady ready (metadata.eraseP fun info => info.claims.store = store)
      .ok (info :: wave, rest)

def insertReady (store : StoreHash) (ready : List StoreHash) : List StoreHash :=
  if store ∈ ready then ready else ready.orderedInsert (fun a b => a.bytes ≤ b.bytes) store

def lowerDegree (s : List StoreHash × (StoreHash → Option ℕ)) (dependent : StoreHash) :
    Except PlanError (List StoreHash × (StoreHash → Option ℕ)) :=
  match s.2 dependent with
  | none => .error .lostDependent
  | some 0 => .error .duplicateEdge
  | some (degree + 1) =>
    .ok (if degree = 0 then insertReady dependent s.1 else s.1,
      Function.update s.2 dependent (some degree))

def takeReadyDependencyWave (dependents : StoreHash → List StoreHash) (p : Planner E) :
    Except PlanError (Planner E) := do
  let (wave, metadata) ← takeReady p.ready p.metadata
  let (ready, indegree) ←
    (wave.flatMap fun info => dependents info.claims.store).foldlM lowerDegree ([], p.indegree)
  .ok ⟨ready, metadata, indegree, p.waves ++ [wave]⟩

def startPlan (byPath : List (NarInfoMetadata E)) (d : Degrees) : Planner E where
  ready := (stores byPath).filter fun store => d.indegree store = some 0
  metadata := byPath
  indegree := d.indegree
  waves := []

/-- Every round takes a path out of the rest, so there are at most as many rounds as paths. -/
def dependencyWaves (metadata : List (NarInfoMetadata E)) :
    Except PlanError (List (List (NarInfoMetadata E))) := do
  let byPath ← metadata.foldlM insertByPath []
  let d ← countReferences byPath
  let p ← whileLoop (fun p : Planner E => p.ready ≠ []) (takeReadyDependencyWave d.dependents)
    (byPath.length + 1) (startPlan byPath d)
  if p.metadata ≠ [] then .error .cyclicReferences else .ok p.waves

def referenceLink (info : NarInfoMetadata E) (reference : NixStorePath) :
    List (StoreHash × StoreHash) :=
  if reference.store = info.claims.store then [] else [(info.claims.store, reference.store)]

/-- The references of all paths but those to the path itself, as pairs of store hashes. -/
def links (infos : List (NarInfoMetadata E)) : List (StoreHash × StoreHash) :=
  infos.flatMap fun info => info.claims.references.flatMap (referenceLink info)

def DependsOn (infos : List (NarInfoMetadata E)) (store reference : StoreHash) : Prop :=
  (store, reference) ∈ links infos

/-- Every path refers only to itself and to paths among them. -/
def Closed (infos : List (NarInfoMetadata E)) : Prop :=
  ∀ info ∈ infos, ∀ reference ∈ info.claims.references,
    reference.store ≠ info.claims.store → reference.store ∈ stores infos

variable {infos all : List (NarInfoMetadata E)} {info : NarInfoMetadata E} {v u : StoreHash}

theorem mem_stores : v ∈ stores infos ↔ ∃ info ∈ infos, info.claims.store = v := List.mem_map

theorem store_mem_stores (h : info ∈ infos) : info.claims.store ∈ stores infos :=
  List.mem_map_of_mem h

theorem stores_append (first second : List (NarInfoMetadata E)) :
    stores (first ++ second) = stores first ++ stores second := List.map_append

theorem dependsOn_iff : DependsOn infos v u ↔ ∃ info ∈ infos, info.claims.store = v ∧
    ∃ reference ∈ info.claims.references, reference.store ≠ v ∧ reference.store = u := by
  rw [DependsOn, links, List.mem_flatMap]
  constructor
  · intro h
    obtain ⟨info, hi, h⟩ := h
    obtain ⟨reference, hr, h⟩ := List.mem_flatMap.1 h
    rw [referenceLink] at h
    split at h
    · cases h
    · next ho =>
      cases List.mem_singleton.1 h
      exact ⟨info, hi, rfl, reference, hr, ho, rfl⟩
  · intro h
    obtain ⟨info, hi, rfl, reference, hr, ho, rfl⟩ := h
    refine ⟨info, hi, List.mem_flatMap.2 ⟨reference, hr, ?_⟩⟩
    rw [referenceLink, if_neg ho]
    exact List.mem_singleton_self _

variable {metadata byPath infos' : List (NarInfoMetadata E)} {ready : List StoreHash}
variable {waves : List (List (NarInfoMetadata E))}

theorem dependsOn_perm (h : infos.Perm infos') : DependsOn infos = DependsOn infos' := by
  funext v u
  refine propext ?_
  simp only [dependsOn_iff, h.mem_iff]

theorem closed_perm (h : infos.Perm infos') : Closed infos ↔ Closed infos' := by
  simp only [Closed, mem_stores, h.mem_iff]

theorem DependsOn.store_mem (h : DependsOn infos v u) : v ∈ stores infos := by
  obtain ⟨info, hi, rfl, -⟩ := dependsOn_iff.1 h
  exact store_mem_stores hi

theorem DependsOn.reference_mem (hc : Closed infos) (h : DependsOn infos v u) :
    u ∈ stores infos := by
  obtain ⟨info, hi, rfl, reference, hr, ho, rfl⟩ := dependsOn_iff.1 h
  exact hc info hi reference hr ho

theorem insertByPath_ok
    (h : insertByPath byPath info = .ok byPath') :
    info.claims.store ∉ stores byPath ∧ byPath'.Perm (info :: byPath) := by
  rw [insertByPath] at h
  split at h
  · cases h
  · next hn =>
    cases Except.ok.inj h
    exact ⟨hn, List.perm_orderedInsert _ _ _⟩

theorem insertAll_ok (metadata byPath : List (NarInfoMetadata E))
    (hb : (stores byPath).Nodup) :
    (∀ result, metadata.foldlM insertByPath byPath = .ok result →
      result.Perm (byPath ++ metadata) ∧ (stores result).Nodup) ∧
    ((stores (byPath ++ metadata)).Nodup →
      ∃ result, metadata.foldlM insertByPath byPath = .ok result) := by
  induction metadata generalizing byPath with
  | nil =>
    constructor
    · intro result h
      cases Except.ok.inj h
      rw [List.append_nil]
      exact ⟨.refl _, hb⟩
    · intro _
      exact ⟨byPath, rfl⟩
  | cons info metadata ih =>
    have hm : ∀ byPath' : List (NarInfoMetadata E), byPath'.Perm (info :: byPath) →
        (byPath' ++ metadata).Perm (byPath ++ info :: metadata) := fun byPath' h =>
      (h.append_right metadata).trans List.perm_middle.symm
    have ho : ∀ byPath' : List (NarInfoMetadata E), info.claims.store ∉ stores byPath →
        byPath'.Perm (info :: byPath) → (stores byPath').Nodup := by
      intro byPath' hn hp
      exact (hp.map _).nodup_iff.2 (List.nodup_cons.2 ⟨hn, hb⟩)
    constructor
    · intro result h
      rw [List.foldlM_cons, except_bind_ok] at h
      obtain ⟨byPath', hi, h⟩ := h
      obtain ⟨hn, hp⟩ := insertByPath_ok hi
      obtain ⟨hr, hd⟩ := (ih byPath' (ho byPath' hn hp)).1 result h
      exact ⟨hr.trans (hm byPath' hp), hd⟩
    · intro h
      have hn : info.claims.store ∉ stores byPath := by
        rw [stores_append] at h
        intro he
        exact (List.nodup_append'.1 h).2.2 he (store_mem_stores List.mem_cons_self)
      have hi : insertByPath byPath info = .ok (byPath.orderedInsert
          (fun a b => a.claims.store.bytes ≤ b.claims.store.bytes) info) := if_neg hn
      have hp := (insertByPath_ok hi).2
      obtain ⟨result, hr⟩ := (ih _ (ho _ hn hp)).2 (((hm _ hp).map _).nodup_iff.2 h)
      refine ⟨result, ?_⟩
      rw [List.foldlM_cons]
      exact except_bind_ok.2 ⟨_, hi, hr⟩

def degrees (keys : List StoreHash) (ls : List (StoreHash × StoreHash)) : Degrees where
  indegree store := if store ∈ keys then some (ls.countP fun l => l.1 = store) else none
  dependents reference := (ls.filter fun l => l.2 = reference).map Prod.fst

theorem indegree_degrees (h : v ∈ keys)
    (ls : List (StoreHash × StoreHash)) :
    (degrees keys ls).indegree v = some (ls.countP fun l => l.1 = v) := if_pos h

theorem countReference_ok (hi : info ∈ byPath) (ls : List (StoreHash × StoreHash))
    (reference : NixStorePath) (d : Degrees) :
    countReference byPath info (degrees (stores byPath) ls) reference = .ok d ↔
      (reference.store ≠ info.claims.store → reference.store ∈ stores byPath) ∧
        d = degrees (stores byPath) (ls ++ referenceLink info reference) := by
  have ht := store_mem_stores hi
  rw [countReference, referenceLink]
  by_cases hs : reference.store = info.claims.store
  · simp [hs, eq_comm]
  · rw [if_neg hs, if_neg hs]
    by_cases hm : reference.store ∈ stores byPath
    · rw [if_pos hm]
      have hl : (⟨Function.update (degrees (stores byPath) ls).indegree info.claims.store
            (((degrees (stores byPath) ls).indegree info.claims.store).map (· + 1)),
          Function.update (degrees (stores byPath) ls).dependents reference.store
            ((degrees (stores byPath) ls).dependents reference.store ++ [info.claims.store])⟩ :
          Degrees) = degrees (stores byPath) (ls ++ [(info.claims.store, reference.store)]) := by
        rw [degrees, degrees, Degrees.mk.injEq]
        constructor
        · funext store
          by_cases heq : store = info.claims.store
          · subst heq
            simp [ht, List.countP_append]
          · simp [Function.update_of_ne heq, List.countP_append, Ne.symm heq]
        · funext store
          by_cases heq : store = reference.store
          · subst heq
            simp [List.filter_append]
          · simp [Function.update_of_ne heq, List.filter_append, Ne.symm heq]
      rw [hl]
      simp [hm, eq_comm]
    · rw [if_neg hm]
      simp [hs, hm]

theorem countReferences_ok (d : Degrees) :
    countReferences byPath = .ok d ↔
      Closed byPath ∧ d = degrees (stores byPath) (links byPath) := by
  have hs : (⟨fun store => if store ∈ stores byPath then some 0 else none, fun _ => []⟩ :
      Degrees) = degrees (stores byPath) [] := rfl
  rw [countReferences, hs]
  refine foldlM_gather (fun ls info hi t => ?_) [] d
  exact foldlM_gather (fun ls' reference _ t' => countReference_ok hi ls' reference t') ls t

theorem perm_cons_eraseP {α : Type} {p : α → Bool} {l : List α} {a : α} (h : l.find? p = some a) :
    l.Perm (a :: l.eraseP p) := by
  obtain ⟨ha, front, back, rfl, hf⟩ := List.find?_eq_some_iff_append.1 h
  have he : (front ++ a :: back).eraseP p = front ++ back := by
    rw [List.eraseP_append_right _ fun b hb => by simpa using hf b hb, List.eraseP_cons_of_pos ha]
  rw [he]
  exact List.perm_middle

theorem takeReady_ok (hr : ready.Nodup) (hl : ∀ store ∈ ready, store ∈ stores metadata) :
    ∃ wave rest, takeReady ready metadata = .ok (wave, rest) ∧ stores wave = ready ∧
      (wave ++ rest).Perm metadata := by
  induction ready generalizing metadata with
  | nil => exact ⟨[], metadata, rfl, rfl, .refl _⟩
  | cons store ready ih =>
    obtain ⟨ho, hr⟩ := List.nodup_cons.1 hr
    obtain ⟨other, hm, ht⟩ := mem_stores.1 (hl store List.mem_cons_self)
    cases hf : metadata.find? fun info => info.claims.store = store with
    | none =>
      have hn := List.find?_eq_none.1 hf other hm
      simp [ht] at hn
    | some info =>
      have hi : info.claims.store = store := by
        simpa using List.find?_some hf
      have hp := perm_cons_eraseP hf
      have hs : ∀ other ∈ ready,
          other ∈ stores (metadata.eraseP fun info => info.claims.store = store) := by
        intro other he
        have hh := ((hp.map _).mem_iff).1 (hl other (List.mem_cons_of_mem _ he))
        refine (List.mem_cons.1 hh).resolve_left fun heq => ?_
        have ha := heq.trans hi
        exact ho (ha ▸ he)
      obtain ⟨wave, rest, hk, hw, hsp⟩ := ih hr hs
      refine ⟨info :: wave, rest, ?_, ?_, ?_⟩
      · rw [takeReady, hf]
        exact except_bind_ok.2 ⟨(wave, rest), hk, rfl⟩
      · rw [← hw, ← hi]
        rfl
      · exact (hsp.cons info).trans hp.symm

theorem mem_insertReady : v ∈ insertReady u ready ↔ v = u ∨ v ∈ ready := by
  rw [insertReady]
  split
  · next hm =>
    constructor
    · exact Or.inr
    · intro h
      rcases h with rfl | h
      · exact hm
      · exact h
  · exact List.mem_orderedInsert ..

theorem nodup_insertReady (h : ready.Nodup) : (insertReady u ready).Nodup := by
  rw [insertReady]
  split
  · exact h
  · next hn => exact (List.perm_orderedInsert _ u ready).nodup_iff.2 (List.nodup_cons.2 ⟨hn, h⟩)

/-- Counts that suffice are lowered by the number of times a path is named; a path becomes ready
when its count runs out. -/
theorem lowerDegree_ok (named ready : List StoreHash) (indegree : StoreHash → Option ℕ)
    (hs : ∀ v ∈ named, ∃ degree, indegree v = some degree ∧ named.count v ≤ degree) :
    ∃ ready' indegree', named.foldlM lowerDegree (ready, indegree) = .ok (ready', indegree') ∧
      (∀ v, indegree' v = (indegree v).map (· - named.count v)) ∧
      (∀ v, v ∈ ready' ↔ v ∈ ready ∨ v ∈ named ∧ indegree v = some (named.count v)) ∧
      (ready.Nodup → ready'.Nodup) := by
  induction named generalizing ready indegree with
  | nil => exact ⟨ready, indegree, rfl, by simp, by simp, id⟩
  | cons first named ih =>
    obtain ⟨degree, hf, hc⟩ := hs first List.mem_cons_self
    rw [List.count_cons_self] at hc
    obtain ⟨degree, rfl⟩ : ∃ d, degree = d + 1 := ⟨degree - 1, by omega⟩
    have hp : lowerDegree (ready, indegree) first = .ok
        (if degree = 0 then insertReady first ready else ready,
          Function.update indegree first (some degree)) := by
      simp only [lowerDegree, hf]
    have ht : ∀ v ∈ named, ∃ d, Function.update indegree first (some degree) v = some d ∧
        named.count v ≤ d := by
      intro v hv
      by_cases heq : v = first
      · subst heq
        exact ⟨degree, Function.update_self .., by omega⟩
      · obtain ⟨d, hd, hle⟩ := hs v (List.mem_cons_of_mem first hv)
        rw [List.count_cons_of_ne (Ne.symm heq)] at hle
        exact ⟨d, (Function.update_of_ne heq ..).trans hd, hle⟩
    obtain ⟨ready', indegree', ho, hi, hm, hu⟩ :=
      ih (if degree = 0 then insertReady first ready else ready) _ ht
    refine ⟨ready', indegree', ?_, fun v => ?_, fun v => ?_, fun hr => hu ?_⟩
    · rw [List.foldlM_cons]
      exact except_bind_ok.2 ⟨_, hp, ho⟩
    · rw [hi]
      by_cases heq : v = first
      · subst heq
        rw [Function.update_self, hf, List.count_cons_self]
        simp
      · rw [Function.update_of_ne heq, List.count_cons_of_ne (Ne.symm heq)]
    · rw [hm]
      by_cases heq : v = first
      · subst heq
        rw [Function.update_self, hf, List.count_cons_self, Option.some.injEq, Option.some.injEq]
        by_cases hz : degree = 0
        · subst hz
          have he : named.count v = 0 := by omega
          simp [mem_insertReady, he]
        · rw [if_neg hz]
          have hn : degree = named.count v → v ∈ named := fun h => List.count_pos_iff.1 (by omega)
          constructor
          · intro h
            rcases h with h | h
            · exact .inl h
            · exact .inr ⟨List.mem_cons_self, by omega⟩
          · intro h
            rcases h with h | h
            · exact .inl h
            · have hl : degree = named.count v := by omega
              exact .inr ⟨hn hl, hl⟩
      · rw [Function.update_of_ne heq, List.count_cons_of_ne (Ne.symm heq)]
        have hr : v ∈ (if degree = 0 then insertReady first ready else ready) ↔ v ∈ ready := by
          split
          · rw [mem_insertReady]
            exact or_iff_right heq
          · rfl
        rw [hr, List.mem_cons, or_iff_right heq]
    · split
      · exact nodup_insertReady hr
      · exact hr

/-- After some waves: they are the first layers, and the counts are the references that lead
outside them. -/
structure Layered (all : List (NarInfoMetadata E)) (p : Planner E) : Prop where
  partition : (p.waves.flatten ++ p.metadata).Perm all
  nonempty : ∀ wave ∈ p.waves, wave ≠ []
  layers : ∀ i wave, p.waves[i]? = some wave →
    ∀ info ∈ wave, info.claims.store ∈ layer (DependsOn all) i
  left : ∀ info ∈ p.metadata, info.claims.store ∉ settled (DependsOn all) p.waves.length
  indegree : ∀ store ∈ stores all, p.indegree store =
    some (openLinks (links all) (settled (DependsOn all) p.waves.length) store)
  ready : ∀ store, store ∈ p.ready ↔
    store ∈ stores all ∧ store ∈ layer (DependsOn all) p.waves.length
  distinct : p.ready.Nodup

theorem layered_startPlan (hd : (stores all).Nodup) :
    Layered all (startPlan all (degrees (stores all) (links all))) where
  partition := .refl _
  nonempty := by
    intro wave hw
    cases hw
  layers := by
    intro i wave hw
    simp [startPlan] at hw
  left := fun _ _ => not_mem_settled_zero
  indegree := by
    intro store hs
    change (degrees (stores all) (links all)).indegree store = some (openLinks (links all) ∅ store)
    rw [openLinks_empty, indegree_degrees hs]
  ready := by
    intro store
    change store ∈ (stores all).filter _ ↔ _
    rw [List.mem_filter, decide_eq_true_eq]
    refine and_congr_right fun hs => ?_
    rw [indegree_degrees hs, Option.some.injEq, ← openLinks_empty, openLinks_eq_zero]
    exact ⟨fun h => ⟨h, not_mem_settled_zero⟩, fun h => h.1⟩
  distinct := hd.filter _

namespace Layered

variable {p : Planner E}

theorem mem_stores_left (h : Layered all p) (hv : v ∈ stores all)
    (ho : v ∉ settled (DependsOn all) p.waves.length) : v ∈ stores p.metadata := by
  obtain ⟨info, hn, rfl⟩ := mem_stores.1 hv
  rcases List.mem_append.1 (h.partition.mem_iff.2 hn) with ha | he
  · obtain ⟨wave, hw, hm⟩ := List.mem_flatten.1 ha
    obtain ⟨i, hi, rfl⟩ := List.mem_iff_getElem.1 hw
    have hl := h.layers i p.waves[i] (List.getElem?_eq_getElem hi) info hm
    exact absurd (settled_mono (Nat.succ_le_of_lt hi) hl.1) ho
  · exact store_mem_stores he

theorem open_eq (h : Layered all p) (ho : Closed all) (v : StoreHash) :
    openLinks (links all) (settled (DependsOn all) p.waves.length) v =
      (waiting (links all) p.ready).count v +
        openLinks (links all) (settled (DependsOn all) (p.waves.length + 1)) v := by
  refine openLinks_add_count h.distinct (fun l hl => ?_) fun u hu => ((h.ready u).1 hu).2.1
  have ht := DependsOn.reference_mem ho (v := l.1) hl
  constructor
  · intro hp
    by_cases hn : l.2 ∈ settled (DependsOn all) (p.waves.length + 1)
    · exact .inl ((h.ready l.2).2 ⟨ht, hn, hp⟩)
    · exact .inr hn
  · intro hc
    rcases hc with hr | hn
    · exact ((h.ready l.2).1 hr).2.2
    · exact fun hs => hn (settled_mono (Nat.le_succ _) hs)

theorem mem_waiting : v ∈ waiting ls wave ↔ ∃ u ∈ wave, (v, u) ∈ ls := by
  simp [waiting]

theorem next_ready (h : Layered all p) (hc : Closed all) (v : StoreHash) :
    (v ∈ waiting (links all) p.ready ∧
        p.indegree v = some ((waiting (links all) p.ready).count v)) ↔
      v ∈ stores all ∧ v ∈ layer (DependsOn all) (p.waves.length + 1) := by
  have hp := h.open_eq hc v
  constructor
  · intro hv
    obtain ⟨hw, hd⟩ := hv
    obtain ⟨u, hu, hl⟩ := mem_waiting.1 hw
    have hs := DependsOn.store_mem (u := u) hl
    rw [h.indegree v hs, Option.some.injEq] at hd
    have hn : openLinks (links all) (settled (DependsOn all) (p.waves.length + 1)) v = 0 := by
      omega
    refine ⟨hs, openLinks_eq_zero.1 hn, fun ht => ?_⟩
    exact ((h.ready u).1 hu).2.2 (ht u hl)
  · intro hv
    obtain ⟨hs, he, ho⟩ := hv
    have hn := openLinks_eq_zero.2 he
    have hm : openLinks (links all) (settled (DependsOn all) p.waves.length) v ≠ 0 :=
      fun hz => ho (openLinks_eq_zero.1 hz)
    rw [h.indegree v hs, Option.some.injEq]
    exact ⟨List.count_pos_iff.1 (by omega), by omega⟩

theorem take_wave (h : Layered all p) (hdi : (stores all).Nodup) (hc : Closed all)
    (hd : p.ready ≠ []) :
    ∃ q, takeReadyDependencyWave (degrees (stores all) (links all)).dependents p = .ok q ∧
      Layered all q ∧ q.metadata.length < p.metadata.length := by
  have hy : ∀ store ∈ p.ready, store ∈ layer (DependsOn all) p.waves.length :=
    fun store hs => ((h.ready store).1 hs).2
  obtain ⟨wave, rest, hta, ha, hp⟩ := takeReady_ok h.distinct fun store hs =>
    h.mem_stores_left ((h.ready store).1 hs).1 (hy store hs).2
  have hna : (wave.flatMap fun info =>
      (degrees (stores all) (links all)).dependents info.claims.store) =
      waiting (links all) p.ready := by
    rw [← ha, waiting]
    exact (List.flatMap_map _ _ wave).symm
  obtain ⟨ready, indegree, hlo, hid, hme, hu⟩ :=
    lowerDegree_ok (waiting (links all) p.ready) [] p.indegree fun v hv => by
        obtain ⟨u, -, hk⟩ := mem_waiting.1 hv
        refine ⟨_, h.indegree v (DependsOn.store_mem (u := u) hk), ?_⟩
        rw [h.open_eq hc v]
        exact Nat.le_add_right _ _
  have hl : (p.waves ++ [wave]).length = p.waves.length + 1 := List.length_append
  have hpa : ((p.waves ++ [wave]).flatten ++ rest).Perm all := by
    rw [List.flatten_append, List.flatten_singleton, List.append_assoc]
    exact (hp.append_left _).trans h.partition
  refine ⟨⟨ready, rest, indegree, p.waves ++ [wave]⟩, ?_, ?_, ?_⟩
  · refine except_bind_ok.2 ⟨(wave, rest), hta, except_bind_ok.2 ⟨(ready, indegree), ?_, rfl⟩⟩
    rw [hna]
    exact hlo
  · refine ⟨hpa, ?_, ?_, ?_, ?_, ?_, hu .nil⟩
    · intro w hw
      rcases List.mem_append.1 hw with hol | hne
      · exact h.nonempty w hol
      · rw [List.mem_singleton.1 hne]
        intro he
        exact hd (ha ▸ he ▸ rfl)
    · intro i w hw info hn
      by_cases hi : i < p.waves.length
      · rw [List.getElem?_append_left hi] at hw
        exact h.layers i w hw info hn
      · obtain ⟨hlt, -⟩ := List.getElem?_eq_some_iff.1 hw
        change i < (p.waves ++ [wave]).length at hlt
        obtain rfl : i = p.waves.length := by omega
        rw [List.getElem?_concat_length] at hw
        cases Option.some.inj hw
        exact hy _ (ha ▸ store_mem_stores hn)
    · intro info hn ht
      rw [hl] at ht
      have hm : info ∈ p.metadata := hp.mem_iff.1 (List.mem_append_right _ hn)
      have hal : info ∈ all := h.partition.mem_iff.1 (List.mem_append_right _ hm)
      -- It would be ready, so its store hash would be in the wave and in the rest.
      have hin : info.claims.store ∈ stores wave :=
        ha ▸ (h.ready _).2 ⟨store_mem_stores hal, ht, h.left info hm⟩
      have hf : (stores (wave ++ rest)).Nodup := by
        have hst := h.partition.map fun info : NarInfoMetadata E => info.claims.store
        have hr := hst.nodup_iff.2 hdi
        rw [List.map_append] at hr
        exact (hp.map _).nodup_iff.2 (List.nodup_append'.1 hr).2.1
      rw [stores_append] at hf
      exact (List.nodup_append'.1 hf).2.2 hin (store_mem_stores hn)
    · intro store hs
      change indegree store = _
      rw [hid, h.indegree store hs, hl, h.open_eq hc store, Option.map_some,
        Nat.add_sub_cancel_left]
    · intro store
      rw [hl]
      refine (hme store).trans ?_
      rw [← h.next_ready hc store]
      simp
  · have hso : wave ≠ [] := by
      intro he
      exact hd (ha ▸ he ▸ rfl)
    have ho := hp.length_eq
    rw [List.length_append] at ho
    have := List.length_pos_of_ne_nil hso
    change rest.length < _
    omega

theorem acyclic_iff (h : Layered all p) (ho : Closed all) (hr : p.ready = []) :
    p.metadata = [] ↔ Acyclic (DependsOn all) := by
  constructor
  · intro he v hc
    have ht : v ∈ stores all := by
      obtain ⟨u, hf, -⟩ := Relation.TransGen.head'_iff.1 hc
      exact DependsOn.store_mem hf
    by_cases hs : v ∈ settled (DependsOn all) p.waves.length
    · exact not_transGen_of_settled hs hc
    · have hl := h.mem_stores_left ht hs
      rw [he] at hl
      cases hl
  · intro ha
    by_contra hl
    obtain ⟨info, hi⟩ := List.exists_mem_of_ne_nil _ hl
    have hal := h.partition.mem_iff.1 (List.mem_append_right _ hi)
    refine not_acyclic_of_stalled (S := {v | v ∈ stores all}) (stores all).finite_toSet
      (fun v _ u hd => DependsOn.reference_mem ho hd) (store_mem_stores hal)
      (h.left info hi) (fun v hv hy => ?_) ha
    have hm := (h.ready v).2 ⟨hv, hy⟩
    rw [hr] at hm
    cases hm

end Layered

/-- The waves hold every path once; the number of a path's wave is the length of its longest
chain of references. -/
structure IsPlan (metadata : List (NarInfoMetadata E)) (waves : List (List (NarInfoMetadata E))) :
    Prop where
  partition : waves.flatten.Perm metadata
  nonempty : ∀ wave ∈ waves, wave ≠ []
  longest : ∀ i wave, waves[i]? = some wave → ∀ info ∈ wave,
    IsGreatest {n | Chain (DependsOn metadata) n info.claims.store} i

theorem rounds_ok (hd : (stores all).Nodup) (hl : Closed all) :
    ∃ p, whileLoop (fun p : Planner E => p.ready ≠ [])
        (takeReadyDependencyWave (degrees (stores all) (links all)).dependents) (all.length + 1)
        (startPlan all (degrees (stores all) (links all))) = .ok p ∧
      Layered all p ∧ p.ready = [] := by
  have hr : ∀ p q : Planner E, Layered all p → p.ready ≠ [] →
      takeReadyDependencyWave (degrees (stores all) (links all)).dependents p = .ok q →
      Layered all q ∧ q.metadata.length + 1 < p.metadata.length + 1 := by
    intro p q hp he hq
    obtain ⟨q', hq', ha, hlt⟩ := hp.take_wave hd hl he
    cases Except.ok.inj (hq'.symm.trans hq)
    exact ⟨ha, Nat.succ_lt_succ hlt⟩
  have hs := layered_startPlan hd
  obtain ⟨p, hp⟩ := whileLoop_total (fun p q hi hc hq => (hr p q hi hc hq).1)
    (fun p hi hc => (hi.take_wave hd hl hc).imp fun _ hq => hq.1) (all.length + 1) hs
  have ho := whileLoop_done (fun p : Planner E => p.metadata.length + 1)
    (fun _ _ => Nat.succ_pos _) hr hs (Nat.le_refl _) hp
  exact ⟨p, hp, whileLoop_invariant (fun p q hi hc hq => (hr p q hi hc hq).1) hs hp, not_not.1 ho⟩

theorem Layered.isPlan (h : Layered all p) (hm : p.metadata = [])
    (he : all.Perm metadata) : IsPlan metadata p.waves where
  partition := by
    have hp := h.partition
    rw [hm, List.append_nil] at hp
    exact hp.trans he
  nonempty := h.nonempty
  longest := by
    intro i wave hw info hi
    rw [← dependsOn_perm he]
    exact mem_layer_iff.1 (h.layers i wave hw info hi)

/-- Planning succeeds for distinct, closed and acyclic paths only, and then gives a plan. -/
theorem dependencyWaves_ok (h : dependencyWaves metadata = .ok waves) :
    (stores metadata).Nodup ∧ Closed metadata ∧ Acyclic (DependsOn metadata) ∧
      IsPlan metadata waves := by
  obtain ⟨all, hal, h⟩ := except_bind_ok.1 h
  obtain ⟨d, hd, h⟩ := except_bind_ok.1 h
  obtain ⟨hr, hi⟩ := (insertAll_ok metadata [] .nil).1 all hal
  obtain ⟨hc, rfl⟩ := (countReferences_ok d).1 hd
  obtain ⟨p, hp, hl, hre⟩ := rounds_ok hi hc
  obtain ⟨q, hq, hn⟩ := except_bind_ok.1 h
  cases Except.ok.inj (hp.symm.trans hq)
  split at hn
  · cases hn
  · next he =>
    cases Except.ok.inj hn
    have he := not_not.1 he
    refine ⟨(hr.map _).nodup_iff.1 hi, (closed_perm hr).1 hc, ?_, hl.isPlan he hr⟩
    have ha := (hl.acyclic_iff hc hre).1 he
    rwa [dependsOn_perm hr] at ha

theorem exists_dependencyWaves (hd : (stores metadata).Nodup) (hc : Closed metadata)
    (hy : Acyclic (DependsOn metadata)) : ∃ waves, dependencyWaves metadata = .ok waves := by
  obtain ⟨hs, hx⟩ := insertAll_ok metadata [] .nil
  obtain ⟨all, ha⟩ := hx hd
  obtain ⟨he, hd'⟩ := hs all ha
  have hc' := (closed_perm he).2 hc
  obtain ⟨p, hp, hl, hr⟩ := rounds_ok hd' hc'
  have hm : p.metadata = [] := by
    refine (hl.acyclic_iff hc' hr).2 ?_
    rw [dependsOn_perm he]
    exact hy
  refine ⟨p.waves, except_bind_ok.2 ⟨all, ha, except_bind_ok.2
    ⟨_, (countReferences_ok _).2 ⟨hc', rfl⟩, except_bind_ok.2 ⟨p, hp, ?_⟩⟩⟩⟩
  rw [if_neg (not_not.2 hm)]

theorem IsPlan.lt_of_dependsOn (h : IsPlan metadata waves) {i j : ℕ} (hw : waves[i]? = some wave)
    (hi : info ∈ wave) (hw' : waves[j]? = some wave') (ho : other ∈ wave')
    (hd : DependsOn metadata info.claims.store other.claims.store) : j < i :=
  layer_lt (mem_layer_iff.2 (h.longest i wave hw info hi))
    (mem_layer_iff.2 (h.longest j wave' hw' other ho)) hd

end Push
