/-
The handler tables one `updateRouting` leaves: what the loops over the
edges and the vertices do to the handler map and the lists.

A placeholder in the handler map reads as the null pointer that a
missing entry gives, so none of the loops changes what a label's entry
reads as (`entry`).
-/
import CroCOS.Proofs.InterruptManager.Cache

namespace CroCOS.Interrupts.Manager

open Function Lib

variable {Domain Handler : Type} [DecidableEq Domain]
variable {P : Platform Domain} {V : VectorSort} {policy : Policy P}
variable {T : Graph.Digraph Domain} {s s' : State Domain Handler}
variable {final : Label Domain → Option Nat}

-- ==== the handler map

/-- The pointer a label has in the handler map, null when it has none. -/
def entry (registeredHandlers : Label Domain → Option (Option Nat))
    (l : Label Domain) : Option Nat :=
  (registeredHandlers l).getD none

theorem entry_assignVector (n : Numbers Domain)
    (e : Label Domain × Label Domain) :
    entry (assignVector P n e).registeredHandlers
      = entry n.registeredHandlers := by
  funext l
  unfold entry assignVector
  dsimp only
  split_ifs with h
  · by_cases hl : l = e.1
    · rw [Bool.and_eq_true, Option.isNone_iff_eq_none] at h
      rw [hl, update_self, h.2]
      rfl
    · rw [update_of_ne hl]
  · rfl

theorem entry_assignVectors (edges : List (Label Domain × Label Domain))
    (n : Numbers Domain) :
    entry (edges.foldl (assignVector P) n).registeredHandlers
      = entry n.registeredHandlers := by
  induction edges generalizing n with
  | nil => rfl
  | cons e edges ih =>
    rw [List.foldl_cons, ih]
    exact entry_assignVector n e

/-- Where a vertex's handler goes: nowhere unless it is a pure emitter. -/
def destination (P : Platform Domain) (final : Label Domain → Option Nat)
    (v : Label Domain) : Except Fault (Option Nat) :=
  if isPureEmitter P v then
    match final v with
    | none => .error (.assertion
        "Emitter vertex has no vector assignment — routing policy left a source unrouted")
    | some n => if n < CPU_INTERRUPT_COUNT then .ok (some n)
        else .error .outOfBounds
  else .ok none

def Handlers.push (h : Handlers Domain) (v : Label Domain) :
    Option Nat → Handlers Domain
  | none => h
  | some n =>
    { registeredHandlers := update h.registeredHandlers v
        (some (entry h.registeredHandlers v))
      handlersByVector := update h.handlersByVector n
        (some ((h.handlersByVector n).getD []
          ++ [entry h.registeredHandlers v])) }

theorem pushHandler_eq (final : Label Domain → Option Nat)
    (h : Handlers Domain) (v : Label Domain) :
    pushHandler P final h v = (destination P final v).map (h.push v) := by
  unfold pushHandler destination
  cases isPureEmitter P v with
  | false => rfl
  | true =>
    cases final v with
    | none => rfl
    | some n =>
      by_cases hn : n < CPU_INTERRUPT_COUNT
      · simp only [if_pos hn]
        rfl
      · simp only [if_neg hn]
        rfl

theorem entry_push (h : Handlers Domain) (v : Label Domain) (o : Option Nat) :
    entry (h.push v o).registeredHandlers = entry h.registeredHandlers := by
  cases o with
  | none => rfl
  | some n =>
    funext l
    show (update h.registeredHandlers v
      (some (entry h.registeredHandlers v)) l).getD none
        = entry h.registeredHandlers l
    by_cases hl : l = v
    · rw [hl, update_self]
      rfl
    · rw [update_of_ne hl]
      rfl

theorem entry_compute {g : RoutingGraph P T}
    {orderMap : Option (List (Domain × Nat))}
    {r : Label Domain → Option (Option Nat)} {n : Numbers Domain}
    (h : computeFinalVectorNumbers V g orderMap r = .ok n) :
    entry n.registeredHandlers = entry r := by
  obtain ⟨edgeList, -, h⟩ := bind_inv h
  cases h
  exact entry_assignVectors edgeList _

theorem entry_populate :
    ∀ {vertices : List (Label Domain)} {h h' : Handlers Domain},
      vertices.foldlM (pushHandler P final) h = .ok h' →
      entry h'.registeredHandlers = entry h.registeredHandlers := by
  intro vertices
  induction vertices with
  | nil =>
    intro h h' hrun
    cases hrun
    rfl
  | cons v vertices ih =>
    intro h h' hrun
    rw [List.foldlM_cons, pushHandler_eq] at hrun
    cases hd : destination P final v with
    | error e => rw [hd] at hrun; cases hrun
    | ok o =>
      rw [hd] at hrun
      rw [ih hrun, entry_push]


/-- What `updateRouting` leaves alone, and the tables it installs. -/
theorem updateRouting_installs (hc : Cached P s)
    (h : updateRouting V policy s = .ok (s', final)) :
    ∃ (orderMap : Option (List (Domain × Nat))) (n : Numbers Domain)
      (hd : Handlers Domain) (g₀ g : RoutingGraph P s.builder),
      policy s.builder = .ok g₀ ∧ g.edges = g₀.edges
      ∧ computeFinalVectorNumbers V g orderMap s.registeredHandlers = .ok n
      ∧ populateHandlerTable g n = .ok hd
      ∧ final = n.finalVectorNumber
      ∧ s'.builder = s.builder ∧ s'.handlers = s.handlers
      ∧ s'.cachedGraph = some s.builder
      ∧ s'.registeredHandlers = hd.registeredHandlers
      ∧ s'.handlersByVector = hd.handlersByVector
      ∧ enableOnlyMappedInterrupts g s.receiverMask = .ok s'.receiverMask
      ∧ populateEOIBehaviorTable V g orderMap n.finalVectorNumber
        s.eoiBehaviorTable = .ok s'.eoiBehaviorTable := by
  obtain ⟨T, s₁, s₂, n, hd, receiverMask, table, g₀, g, hT, hg₀, hs₂, hg, hn,
    hhd, hmask, htable, rfl, rfl⟩ := updateRouting_inv h
  obtain ⟨rfl, s₃, hs₃, hcases⟩ := hc.topologyGraph_inv hT
  rw [hs₂] at hs₃
  cases hs₃
  have hedges : g.edges = g₀.edges := by
    obtain ⟨color, -, hg⟩ := bind_inv hg
    cases hg
    rfl
  rcases hcases with ⟨rfl, hgraph, -⟩ | ⟨sorted, -, rfl⟩
  · exact ⟨_, n, hd, g₀, g, hg₀, hedges, hn, hhd, rfl, rfl, rfl, hgraph, rfl,
      rfl, hmask, htable⟩
  · exact ⟨_, n, hd, g₀, g, hg₀, hedges, hn, hhd, rfl, rfl, rfl, rfl, rfl,
      rfl, hmask, htable⟩

end CroCOS.Interrupts.Manager
