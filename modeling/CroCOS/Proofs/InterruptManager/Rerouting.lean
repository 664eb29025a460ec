/-
Routing again. An `updateRouting` that has to build the graph, since
something was registered after the last one, leaves the tables that a
first call would have left had only the registrations been made, and
works with a topological order of the domains registered. One that
finds the graph as it was does not: it reads the order that the call
before it released.

# The comparison

Beside the run goes the run of its registrations alone. What the earlier
calls of `updateRouting` have left does not show: placeholders in the
handler map read as the null pointers that missing entries give
(`entry`), and the masks and the table entries are written again.
-/
import CroCOS.Proofs.InterruptManager.Tables
import CroCOS.Proofs.InterruptManager.Wired

namespace CroCOS.Interrupts.Manager

open Function
open CroCOS.Graph (topologicalSort IsTopologicalOrder)
open Lib

variable {Domain Handler : Type} [DecidableEq Domain]
variable {P : Platform Domain} {V : VectorSort} {policy : Policy P}
variable {T : Graph.Digraph Domain} {s s' f : State Domain Handler}
variable {d : Domain}
variable {m m' : Label Domain → Option Bool}
variable {r r' : Label Domain → Option (Option Nat)}

-- ==== the tables

/-- What `updateRouting` leaves. -/
structure Tables (Domain : Type) where
  handlersByVector : Nat → Option (List (Option Nat))
  finalVectorNumber : Label Domain → Option Nat
  receiverMask : Label Domain → Option Bool
  eoiBehaviorTable : EOITable Domain

omit [DecidableEq Domain] in
def tables (p : State Domain Handler × (Label Domain → Option Nat)) :
    Tables Domain :=
  ⟨p.1.handlersByVector, p.2, p.1.receiverMask, p.1.eoiBehaviorTable⟩

/-- The handler lists and the final vector numbers. -/
def handlerLists (V : VectorSort) (g : RoutingGraph P T)
    (orderMap : Option (List (Domain × Nat)))
    (registeredHandlers : Label Domain → Option (Option Nat)) :
    Except Fault ((Nat → Option (List (Option Nat)))
      × (Label Domain → Option Nat)) := do
  let n ← computeFinalVectorNumbers V g orderMap registeredHandlers
  let h ← populateHandlerTable g n
  return (h.handlersByVector, n.finalVectorNumber)

/-- `updateRouting` from the policy's graph and the order on. -/
def route (V : VectorSort) (g : RoutingGraph P T) (sorted : List Domain)
    (registeredHandlers : Label Domain → Option (Option Nat))
    (receiverMask : Label Domain → Option Bool) (table : EOITable Domain) :
    Except Fault (Tables Domain) := do
  let orderMap := if sorted.isEmpty then none else some sorted.zipIdx
  let g ← build g sorted
  let p ← handlerLists V g orderMap registeredHandlers
  let receiverMask ← enableOnlyMappedInterrupts g receiverMask
  let table ← populateEOIBehaviorTable V g orderMap p.2 table
  return ⟨p.1, p.2, receiverMask, table⟩

/-- The tables of a call that builds the graph. -/
theorem updateRouting_of_stale (h : Stale s) :
    (updateRouting V policy s).map tables = (do
      let acyclic ← Graph.DirectedAcyclic.check s.builder
      if acyclic then
        checkDomains P s.builder
        let g ← policy s.builder
        let sorted ← topologicalSort s.builder
        route V g sorted s.registeredHandlers s.receiverMask s.eoiBehaviorTable
      else .error .nullDeref) := by
  unfold updateRouting
  rw [topologyGraph_of_stale h]
  cases Graph.DirectedAcyclic.check s.builder with
  | error e => rfl
  | ok acyclic =>
    cases acyclic with
    | false => rfl
    | true =>
      show ((checkDomains P s.builder >>= _).map tables) = _
      rw [map_bind]
      refine congrArg _ (funext fun _ => ?_)
      rw [map_bind]
      refine congrArg _ (funext fun g => ?_)
      rw [recompute_built]
      cases topologicalSort s.builder with
      | error e => rfl
      | ok sorted =>
        simp only [map_bind, route, handlerLists, bind_assoc]
        rfl

-- ==== what they depend on

theorem assignVectors_final_congr
    (edges : List (Label Domain × Label Domain)) {n n' : Numbers Domain}
    (h : n.finalVectorNumber = n'.finalVectorNumber) :
    (edges.foldl (assignVector P) n).finalVectorNumber
      = (edges.foldl (assignVector P) n').finalVectorNumber := by
  induction edges generalizing n n' with
  | nil => exact h
  | cons e edges ih =>
    refine ih ?_
    unfold assignVector
    rw [h]

theorem populate_congr (final : Label Domain → Option Nat) :
    ∀ {vertices : List (Label Domain)} {h h' : Handlers Domain},
      h.handlersByVector = h'.handlersByVector →
      entry h.registeredHandlers = entry h'.registeredHandlers →
      (vertices.foldlM (pushHandler P final) h).map Handlers.handlersByVector
        = (vertices.foldlM (pushHandler P final) h').map
          Handlers.handlersByVector := by
  intro vertices
  induction vertices with
  | nil =>
    intro h h' hv _
    exact congrArg Except.ok hv
  | cons v vertices ih =>
    intro h h' hv he
    rw [List.foldlM_cons, List.foldlM_cons, pushHandler_eq, pushHandler_eq]
    cases destination P final v with
    | error e => rfl
    | ok o =>
      refine ih ?_ (by rw [entry_push, entry_push, he])
      cases o with
      | none => exact hv
      | some n =>
        unfold Handlers.push
        rw [hv, he]

section

variable (g : RoutingGraph P T)
include g

theorem populateHandlerTable_congr {n n' : Numbers Domain}
    (hfinal : n.finalVectorNumber = n'.finalVectorNumber)
    (he : entry n.registeredHandlers = entry n'.registeredHandlers) : (do
      let h ← populateHandlerTable g n
      return (h.handlersByVector, n.finalVectorNumber))
      = (do
        let h ← populateHandlerTable g n'
        return (h.handlersByVector, n'.finalVectorNumber)) := by
  have key : ∀ x x' : Except Fault (Handlers Domain),
      x.map Handlers.handlersByVector = x'.map Handlers.handlersByVector →
      (do
        let h ← x
        return (h.handlersByVector, n'.finalVectorNumber))
        = (do
          let h ← x'
          return (h.handlersByVector, n'.finalVectorNumber)) := by
    intro x x' hx
    cases x with
    | error e =>
      cases x' with
      | error e' => cases hx; rfl
      | ok h' => cases hx
    | ok h =>
      cases x' with
      | error e' => cases hx
      | ok h' => exact congrArg (fun b => Except.ok
          (b, n'.finalVectorNumber)) (Except.ok.inj hx)
  unfold populateHandlerTable
  rw [hfinal]
  exact key _ _ (populate_congr _ rfl he)

/-- The receivers whose masks are set. -/
def maskLabels (P : Platform Domain) (domains : List Domain) :
    List (Label Domain) :=
  (domains.filter fun d =>
    P.isMaskableDomain d && P.isInterruptReceiver d).flatMap (labelsOf P)

def maskOf (g : RoutingGraph P T) (l : Label Domain) :
    Except Fault (Option Bool) :=
  match g.getVertexByLabel l with
  | none => .error .nullDeref
  | some v => .ok (some (g.firstTarget v).isNone)

theorem maskReceiver_eq (m : Label Domain → Option Bool) (l : Label Domain) :
    maskReceiver g m l = (maskOf g l).map (update m l) := by
  unfold maskReceiver maskOf
  cases g.getVertexByLabel l with
  | none | some v => rfl

/-- What the table gets for a vector. -/
def behaviorOf (g : RoutingGraph P T)
    (chainOf : Nat → Option (EOIChain Domain)) (i : Nat) :
    Except Fault (EOIBehaviorMetadata Domain) :=
  match g.getVertexByLabel ⟨P.vectorFile, i⟩ with
  | none => .error (.assertion "Vertex does not exist")
  | some v => .ok ⟨g.triggerType v, chainOf i⟩

theorem storeChain_eq (chainOf : Nat → Option (EOIChain Domain))
    (table : EOITable Domain) (i : Nat) : storeChain g chainOf table i
      = (behaviorOf g chainOf i).map (update table i) := by
  unfold storeChain behaviorOf
  cases g.getVertexByLabel ⟨P.vectorFile, i⟩ with
  | none | some v => rfl

theorem enable_congr (h : ∀ l, l ∉ maskLabels P T.vertices → m l = m' l) :
    enableOnlyMappedInterrupts g m = enableOnlyMappedInterrupts g m' :=
  foldlM_update_congr (maskOf g) (maskReceiver_eq g) h

theorem table_congr (orderMap : Option (List (Domain × Nat)))
    (final : Label Domain → Option Nat) {t t' : EOITable Domain}
    (h : ∀ i, CPU_INTERRUPT_COUNT ≤ i → t i = t' i) :
    populateEOIBehaviorTable V g orderMap final t
      = populateEOIBehaviorTable V g orderMap final t' := by
  unfold populateEOIBehaviorTable
  refine congrArg _ (funext fun sources => congrArg _ (funext fun p => ?_))
  refine foldlM_update_congr (behaviorOf g _) (storeChain_eq g _)
    fun i hi => h i ?_
  rw [List.mem_range] at hi
  omega

theorem handlerLists_congr (orderMap : Option (List (Domain × Nat)))
    (h : entry r = entry r') :
    handlerLists V g orderMap r = handlerLists V g orderMap r' := by
  unfold handlerLists computeFinalVectorNumbers
  cases V.sort (edgeBefore orderMap) g.edges with
  | error e => rfl
  | ok edgeList =>
    refine populateHandlerTable_congr g
      (assignVectors_final_congr edgeList rfl) ?_
    rw [entry_assignVectors, entry_assignVectors]
    exact h

/-- The tables do not depend on what earlier calls have left. -/
theorem route_congr (sorted : List Domain) {t t' : EOITable Domain}
    (hr : entry r = entry r')
    (hm : ∀ l, l ∉ maskLabels P T.vertices → m l = m' l)
    (ht : ∀ i, CPU_INTERRUPT_COUNT ≤ i → t i = t' i) :
    route V g sorted r m t = route V g sorted r' m' t' := by
  simp only [route, handlerLists_congr _ _ hr, enable_congr _ hm,
    table_congr _ _ _ ht]

end

omit [DecidableEq Domain] in
theorem maskLabels_append (P : Platform Domain) (domains more : List Domain) :
    maskLabels P (domains ++ more)
      = maskLabels P domains ++ maskLabels P more := by
  unfold maskLabels
  rw [List.filter_append, List.flatMap_append]

-- ==== the registrations alone

def isRegistration : Call Domain Handler → Bool
  | .updateRouting => false
  | _ => true

/-- `f` has seen the registrations of `s` only. -/
structure AsFirst (P : Platform Domain) (s f : State Domain Handler) :
    Prop where
  cached : Cached P s
  unbuilt : f.cachedGraph = none
  builder : f.builder = s.builder
  handlers : f.handlers = s.handlers
  entries : entry f.registeredHandlers = entry s.registeredHandlers
  real : ∀ l, f.registeredHandlers l ≠ some none
  masks : ∀ l, l ∉ maskLabels P s.builder.vertices →
    s.receiverMask l = f.receiverMask l
  table : ∀ i, CPU_INTERRUPT_COUNT ≤ i →
    s.eoiBehaviorTable i = f.eoiBehaviorTable i

theorem AsFirst.registerDomain (ha : AsFirst P s f)
    (h : registerDomain d s = .ok s') :
    ∃ f', Manager.registerDomain d f = .ok f' ∧ AsFirst P s' f' := by
  have hc := ha.cached.registerDomain h
  obtain ⟨hd, rfl⟩ := registerDomain_inv h
  have hf : d ∉ f.builder.vertices := by
    rw [ha.builder]
    exact hd
  unfold Manager.registerDomain
  rw [if_neg hf]
  refine ⟨_, rfl, hc, ha.unbuilt, ?_, ha.handlers, ha.entries, ha.real,
    ?_, ha.table⟩
  · rw [ha.builder]
  · intro l hl
    rw [maskLabels_append, List.mem_append, not_or] at hl
    exact ha.masks l hl.1

theorem AsFirst.registerConnector {a b : Domain} (ha : AsFirst P s f)
    (h : registerConnector P a b s = .ok s') :
    ∃ f', Manager.registerConnector P a b f = .ok f' ∧ AsFirst P s' f' := by
  have hc := ha.cached.registerConnector h
  unfold Manager.registerConnector at h ⊢
  rw [ha.builder]
  split_ifs at h ⊢
  cases h
  exact ⟨_, rfl, hc, ha.unbuilt, rfl, ha.handlers, ha.entries, ha.real,
    ha.masks, ha.table⟩

theorem AsFirst.registerHandler {l : Label Domain} {handler : Handler}
    (ha : AsFirst P s f) (h : registerHandler l handler s = .ok s') :
    ∃ f', Manager.registerHandler l handler f = .ok f'
      ∧ AsFirst P s' f' := by
  have hc := ha.cached.registerHandler h
  have hentry : entry f.registeredHandlers l = entry s.registeredHandlers l :=
    congrFun ha.entries l
  unfold Manager.registerHandler
  rcases registerHandler_inv h with ⟨ref, hr, rfl⟩ | ⟨hr, rfl⟩
  · have hf : f.registeredHandlers l = some (some ref) := by
      unfold entry at hentry
      rw [hr] at hentry
      cases hfl : f.registeredHandlers l with
      | none => rw [hfl] at hentry; cases hentry
      | some o =>
        rw [hfl] at hentry
        exact congrArg some hentry
    simp only [hf]
    refine ⟨_, rfl, hc, ha.unbuilt, ha.builder, ?_, ha.entries, ha.real,
      ha.masks, ha.table⟩
    rw [ha.handlers]
  · have hf : f.registeredHandlers l = none := by
      unfold entry at hentry
      rw [hr] at hentry
      cases hfl : f.registeredHandlers l with
      | none => rfl
      | some o =>
        rw [hfl] at hentry
        exact absurd (by rw [hfl, show o = none from hentry]) (ha.real l)
    simp only [hf]
    refine ⟨_, rfl, hc, ha.unbuilt, ha.builder, ?_, ?_, ?_, ha.masks, ha.table⟩
    · rw [ha.handlers]
    · funext k
      show (update f.registeredHandlers l _ k).getD none
        = (update s.registeredHandlers l _ k).getD none
      by_cases hk : k = l
      · rw [hk, update_self, update_self, ha.handlers]
      · rw [update_of_ne hk, update_of_ne hk]
        exact congrFun ha.entries k
    · intro k
      by_cases hk : k = l
      · rw [hk]
        show update f.registeredHandlers l _ l ≠ _
        rw [update_self]
        simp
      · show update f.registeredHandlers l _ k ≠ _
        rw [update_of_ne hk]
        exact ha.real k

theorem AsFirst.updateRouting {final : Label Domain → Option Nat}
    (ha : AsFirst P s f) (h : updateRouting V policy s = .ok (s', final)) :
    AsFirst P s' f := by
  have hc := ha.cached.updateRouting h
  obtain ⟨orderMap, n, hd, g₀, g, -, -, hn, hhd, -, hb, hh, -, hr, -, hmask,
    htable⟩ := updateRouting_installs ha.cached h
  refine ⟨hc, ha.unbuilt, ha.builder.trans hb.symm, ha.handlers.trans hh.symm,
    ?_, ha.real, ?_, ?_⟩
  · rw [hr, entry_populate hhd, entry_compute hn]
    exact ha.entries
  · intro l hl
    rw [hb] at hl
    rw [foldlM_update_of_notMem (maskOf g) (maskReceiver_eq g) hmask l hl]
    exact ha.masks l hl
  · intro i hi
    unfold populateEOIBehaviorTable at htable
    obtain ⟨sources, -, htable⟩ := bind_inv htable
    obtain ⟨p, -, htable⟩ := bind_inv htable
    rw [foldlM_update_of_notMem (behaviorOf g _) (storeChain_eq g _) htable
      i (by rw [List.mem_range]; omega)]
    exact ha.table i hi

/-- Every run, beside the run of its registrations. -/
theorem run_registrations {calls : List (Call Domain Handler)}
    {rs : List (Option (Label Domain → Option Nat))}
    (h : run (step V policy) State.boot calls = .ok (s, rs)) :
    ∃ f qs, run (step V policy) State.boot
        (calls.filter isRegistration) = .ok (f, qs) ∧ AsFirst P s f := by
  have hboot : AsFirst P (State.boot : State Domain Handler) State.boot :=
    ⟨Cached.boot, rfl, rfl, rfl, rfl, by simp [State.boot],
      fun _ _ => rfl, fun _ _ => rfl⟩
  refine run_filter ?_ ?_ hboot h
  · intro s f c s' r ha hk hs
    rcases step_inv hs with ⟨d, rfl, h⟩ | ⟨a, b, rfl, h⟩ | ⟨l, i, rfl, h⟩ |
      ⟨final, rfl, -, -⟩
    · obtain ⟨f', hf, ha'⟩ := ha.registerDomain h
      exact ⟨f', none, by simp only [step, hf]; rfl, ha'⟩
    · obtain ⟨f', hf, ha'⟩ := ha.registerConnector h
      exact ⟨f', none, by simp only [step, hf]; rfl, ha'⟩
    · obtain ⟨f', hf, ha'⟩ := ha.registerHandler h
      exact ⟨f', none, by simp only [step, hf]; rfl, ha'⟩
    · cases hk
  · intro s f c s' r ha hk hs
    rcases step_inv hs with ⟨d, rfl, -⟩ | ⟨a, b, rfl, -⟩ | ⟨l, i, rfl, -⟩ |
      ⟨final, rfl, h, -⟩
    · cases hk
    · cases hk
    · cases hk
    · exact ha.updateRouting h

-- ==== the result

omit [DecidableEq Domain] in
theorem lookup_zipIdx [BEq Domain] [LawfulBEq Domain] :
    ∀ {sorted : List Domain} {n : Nat}, d ∈ sorted →
      (sorted.zipIdx n).lookup d = some (n + sorted.idxOf d) := by
  intro sorted
  induction sorted with
  | nil => intro n hd; cases hd
  | cons e sorted ih =>
    intro n hd
    rw [List.zipIdx_cons, List.lookup_cons, List.idxOf_cons]
    by_cases he : e = d
    · simp [he]
    · have hd : d ∈ sorted :=
        (List.mem_cons.mp hd).resolve_left fun hx => he hx.symm
      rw [ih hd, beq_false_of_ne he, beq_false_of_ne (Ne.symm he)]
      simp only [cond_false]
      congr 1
      omega

/-- The map computed has each domain's position in the order. -/
theorem orderOf_ordered {sorted : List Domain} (hd : d ∈ sorted) :
    orderOf (ordered s sorted).orderMap d = .ok (sorted.idxOf d) := by
  have hne : sorted.isEmpty = false := by
    cases sorted with
    | nil => cases hd
    | cons e sorted => rfl
  unfold ordered orderOf
  simp only [hne, Bool.false_eq_true, if_false, lookup_zipIdx hd]
  rw [Option.getD_some, Nat.zero_add]

/-- A call that builds the graph, in any reachable state: the tables are
those of a first call after the same registrations, and the order is a
topological order of exactly the domains registered. -/
theorem updateRouting_as_first (V : VectorSort) (policy : Policy P)
    (calls : List (Call Domain Handler))
    (rs : List (Option (Label Domain → Option Nat)))
    (hrun : run (step V policy) State.boot calls = .ok (s, rs))
    (hstale : Stale s) :
    (∃ f qs, run (step V policy) State.boot
        (calls.filter isRegistration) = .ok (f, qs)
      ∧ f.cachedGraph = none
      ∧ (updateRouting V policy s).map tables
        = (updateRouting V policy f).map tables)
    ∧ ∀ T s₁, topologyGraph s = .ok (T, s₁) → T = s.builder
      ∧ ∃ s₂, recomputeTopologicalOrderIfNecessary s₁ = .ok s₂
        ∧ IsTopologicalOrder T s₂.sortedDomains
        ∧ ∀ d ∈ T.vertices, orderOf s₂.orderMap d
          = .ok (s₂.sortedDomains.idxOf d) := by
  obtain ⟨f, qs, hf, ha⟩ := run_registrations hrun
  refine ⟨⟨f, qs, hf, ha.unbuilt, ?_⟩, fun T s₁ hT => ?_⟩
  · rw [updateRouting_of_stale hstale,
      updateRouting_of_stale (.inr ha.unbuilt), ha.builder]
    have hroute : ∀ (g : RoutingGraph P s.builder) sorted,
        route V g sorted s.registeredHandlers s.receiverMask s.eoiBehaviorTable
          = route V g sorted f.registeredHandlers f.receiverMask
            f.eoiBehaviorTable := fun g sorted =>
      route_congr g sorted ha.entries.symm ha.masks ha.table
    simp only [hroute]
  · obtain ⟨rfl, s₂, hs₂, hcases⟩ := ha.cached.topologyGraph_inv hT
    refine ⟨rfl, s₂, hs₂, ?_⟩
    rcases hcases with ⟨-, hgraph, hdirty⟩ | ⟨sorted, horder, rfl⟩
    · cases hstale with
      | inl h => rw [hdirty] at h; cases h
      | inr h => rw [hgraph] at h; cases h
    · exact ⟨horder, fun d hd =>
        orderOf_ordered (horder.perm.mem_iff.mpr hd)⟩

theorem machineTimer_stale : Returns (fun p => Stale p.1 ∧ Returns
      (fun q : State Device Nat × (Label Device → Option Nat) =>
        q.2 ⟨.timer, 0⟩ = some 33)
      (updateRouting smallSort machinePolicy p.1))
    (run (step smallSort machinePolicy) State.boot machineTimer) := by
  decide +kernel

/-- Routing again once the timer is connected finds the graph stale, and
the timer gets its vector. -/
theorem updateRouting_as_first_timer : ∃ s rs,
    run (step smallSort machinePolicy) State.boot machineTimer
      = .ok (s, rs)
    ∧ Returns (fun p => p.2 ⟨.timer, 0⟩ = some 33)
      (updateRouting smallSort machinePolicy s)
    ∧ (∃ f qs, run (step smallSort machinePolicy) State.boot
        (machineTimer.filter isRegistration) = .ok (f, qs)
      ∧ f.cachedGraph = none
      ∧ (updateRouting smallSort machinePolicy s).map tables
        = (updateRouting smallSort machinePolicy f).map tables)
    ∧ ∀ T s₁, topologyGraph s = .ok (T, s₁) → T = s.builder
      ∧ ∃ s₂, recomputeTopologicalOrderIfNecessary s₁ = .ok s₂
        ∧ IsTopologicalOrder T s₂.sortedDomains
        ∧ ∀ d ∈ T.vertices, orderOf s₂.orderMap d
          = .ok (s₂.sortedDomains.idxOf d) := by
  obtain ⟨⟨s, rs⟩, hrun, hstale, htimer⟩ := machineTimer_stale.exists_ok
  exact ⟨s, rs, hrun, htimer, updateRouting_as_first smallSort machinePolicy
    machineTimer rs hrun hstale⟩

/-- Routing twice without a registration in between: the second call
finds the graph as it was, does not compute the order, and the first
comparison of two targets looks a domain up in the released map. -/
theorem second_updateRouting_divides_by_zero : ∃ s rs,
    run (step smallSort machinePolicy) State.boot
      (machineSetup ++ [.updateRouting]) = .ok (s, rs)
    ∧ updateRouting smallSort machinePolicy s = .error .divideByZero := by
  decide +kernel

end CroCOS.Interrupts.Manager
