/-
Which handlers a vector runs. After the last `updateRouting` a vector's
list has one pointer for each pure emitter that is routed to it, and
while no source gets its first handler too late, each pointer reads as
the handler registered last (`dispatch_latest`). A source that has been
routed without a handler has a null pointer, and its first
`registerHandler` writes through it.

# The argument

`Known` ties the handler objects to the calls made so far: a label's
entry reads as its latest handler, no two labels share an object, and a
placeholder is one of a source that was routed. `Installed` is what a
`updateRouting` leaves: the lists hold the entries of the sources, which
all have one in the handler map, so that no later `registerHandler`
gives them another.
-/
import CroCOS.Proofs.InterruptManager.Tables
import CroCOS.Proofs.InterruptManager.Wired

namespace CroCOS.Interrupts.Manager

open Function Lib

variable {Domain Handler : Type} [DecidableEq Domain]
variable {P : Platform Domain} {V : VectorSort} {policy : Policy P}
variable {T : Graph.Digraph Domain} {s s' : State Domain Handler}
variable {g : RoutingGraph P T} {l : Label Domain}
variable {c : Call Domain Handler} {orderMap : Option (List (Domain × Nat))}
variable {r : Label Domain → Option (Option Nat)}

-- ==== the vectors

/-- The label is routed to the vector `v`. -/
def RoutesTo (g : RoutingGraph P T) (l : Label Domain) (v : Nat) : Prop :=
  Relation.ReflTransGen (fun a b => (a, b) ∈ g.edges) l ⟨P.vectorFile, v⟩

/-- The numbers assigned are those of the vectors reached. -/
theorem assignVectors_sound (g : RoutingGraph P T) :
    ∀ {edges : List (Label Domain × Label Domain)} {n : Numbers Domain},
      (∀ e ∈ edges, e ∈ g.edges) →
      (∀ l v, n.finalVectorNumber l = some v → RoutesTo g l v) →
      ∀ l v, (edges.foldl (assignVector P) n).finalVectorNumber l = some v →
        RoutesTo g l v := by
  intro edges
  induction edges with
  | nil => intro n _ hn; exact hn
  | cons e edges ih =>
    intro n hin hn
    refine ih (fun e' he' => hin e' (List.mem_cons_of_mem e he')) ?_
    -- the target first: at the vector file a path ends
    have htarget : ∀ l v, (if e.2.domain = P.vectorFile then
        update n.finalVectorNumber e.2 (some e.2.index)
        else n.finalVectorNumber) l = some v → RoutesTo g l v := by
      intro l v hl
      split_ifs at hl with hfile
      · by_cases hle : l = e.2
        · rw [hle, update_self] at hl
          cases hl
          rw [hle, RoutesTo, ← hfile]
        · rw [update_of_ne hle] at hl
          exact hn l v hl
      · exact hn l v hl
    intro l v hl
    unfold assignVector at hl
    by_cases hle : l = e.1
    · rw [hle] at hl ⊢
      simp only [update_self] at hl
      exact (htarget e.2 v hl).head (hin e List.mem_cons_self)
    · simp only [update_of_ne hle] at hl
      exact htarget l v hl

theorem compute_sound {n : Numbers Domain}
    (h : computeFinalVectorNumbers V g orderMap r = .ok n)
    (l : Label Domain) (v : Nat) (hl : n.finalVectorNumber l = some v) :
    RoutesTo g l v := by
  obtain ⟨edgeList, hsort, h⟩ := bind_inv h
  cases h
  exact assignVectors_sound g (fun e he => (V.perm _ _ _ hsort).mem_iff.mp he)
    (fun l v hl => by cases hl) l v hl

omit [DecidableEq Domain] in
/-- A label is routed to one vector at most: each vertex has at most one
edge, and the vector file none. -/
theorem RoutesTo.unique
    (hemits : ∀ e ∈ T.edges, P.isInterruptEmitter e.1 = true) {v w : Nat}
    (hv : RoutesTo g l v) (hw : RoutesTo g l w) : v = w := by
  have hsink : ∀ (i : Nat) (b : Label Domain),
      (⟨P.vectorFile, i⟩, b) ∉ g.edges := by
    intro i b he
    have := hemits _ (g.follows _ he)
    rw [P.vectorFile_sink] at this
    cases this
  induction hv using Relation.ReflTransGen.head_induction_on with
  | refl =>
    cases Relation.ReflTransGen.cases_head hw with
    | inl h => exact congrArg Label.index h
    | inr h =>
      obtain ⟨b, he, -⟩ := h
      exact absurd he (hsink v b)
  | head he _ ih =>
    cases Relation.ReflTransGen.cases_head hw with
    | inl h => rw [h] at he; exact absurd he (hsink w _)
    | inr h =>
      obtain ⟨b, he', hb⟩ := h
      have := g.functional _ he _ he' rfl
      cases this
      exact ih hb

-- ==== the lists

/-- The pure emitters with the vector `v`, in the order of the graph. -/
def sourcesOf (P : Platform Domain) (final : Label Domain → Option Nat)
    (vertices : List (Label Domain)) (v : Nat) : List (Label Domain) :=
  vertices.filter fun l => isPureEmitter P l && final l == some v

/-- What the loop over the vertices leaves. -/
structure Pushed (P : Platform Domain) (final : Label Domain → Option Nat)
    (vertices : List (Label Domain)) (h h' : Handlers Domain) : Prop where
  lists : ∀ v, (h'.handlersByVector v).getD []
    = (h.handlersByVector v).getD []
      ++ (sourcesOf P final vertices v).map (entry h.registeredHandlers)
  routed : ∀ l ∈ vertices, isPureEmitter P l = true → final l ≠ none
  present : ∀ l, l ∈ vertices ∧ isPureEmitter P l = true
    ∨ h.registeredHandlers l ≠ none → h'.registeredHandlers l ≠ none
  null : ∀ l, h'.registeredHandlers l = some none →
    h.registeredHandlers l = some none
      ∨ l ∈ vertices ∧ isPureEmitter P l = true

omit [DecidableEq Domain] in
theorem destination_inv {final : Label Domain → Option Nat}
    {v : Label Domain} {o : Option Nat}
    (h : destination P final v = .ok o) :
    o = none ∧ isPureEmitter P v = false
      ∨ ∃ n, o = some n ∧ isPureEmitter P v = true ∧ final v = some n := by
  unfold destination at h
  cases hp : isPureEmitter P v with
  | false =>
    rw [hp] at h
    cases h
    exact .inl ⟨rfl, rfl⟩
  | true =>
    rw [hp, if_pos rfl] at h
    cases hf : final v with
    | none => simp only [hf] at h; cases h
    | some n =>
      simp only [hf] at h
      split_ifs at h
      cases h
      exact .inr ⟨n, rfl, rfl, rfl⟩

section Push

variable {final : Label Domain → Option Nat} {v : Label Domain}
variable {vertices : List (Label Domain)} {h h' : Handlers Domain}

omit [DecidableEq Domain] in
/-- A vertex that is no pure emitter is passed over. -/
theorem Pushed.skip (hrest : Pushed P final vertices h h')
    (hp : isPureEmitter P v = false) :
    Pushed P final (v :: vertices) h h' := by
  have hcons : ∀ l, isPureEmitter P l = true → l ∈ v :: vertices →
      l ∈ vertices := by
    intro l hl hmem
    cases List.mem_cons.mp hmem with
    | inl hlv => rw [hlv, hp] at hl; cases hl
    | inr hmem => exact hmem
  refine ⟨fun w => ?_, fun l hl hpl => hrest.routed l (hcons l hpl hl) hpl,
    fun l hl => hrest.present l (hl.imp_left fun hl =>
      ⟨hcons l hl.2 hl.1, hl.2⟩), fun l hl => ?_⟩
  · rw [hrest.lists w, sourcesOf, sourcesOf, List.filter_cons_of_neg
      (by simp [hp])]
  · exact (hrest.null l hl).imp_right fun hl =>
      ⟨List.mem_cons_of_mem v hl.1, hl.2⟩

/-- A pure emitter's entry goes to the end of its vector's list. -/
theorem Pushed.push {n : Nat}
    (hrest : Pushed P final vertices (h.push v (some n)) h')
    (hp : isPureEmitter P v = true) (hf : final v = some n) :
    Pushed P final (v :: vertices) h h' := by
  have hself : (h.push v (some n)).registeredHandlers v
      = some (entry h.registeredHandlers v) := update_self v _ _
  have hother : ∀ l, l ≠ v → (h.push v (some n)).registeredHandlers l
      = h.registeredHandlers l := fun l hl => update_of_ne hl _ _
  refine ⟨fun w => ?_, fun l hl hpl => ?_, fun l hl => ?_, fun l hl => ?_⟩
  · rw [hrest.lists w, entry_push, sourcesOf, sourcesOf]
    by_cases hw : w = n
    · rw [List.filter_cons_of_pos (by rw [hp, hf, hw]; simp), hw]
      show (update h.handlersByVector n _ n).getD [] ++ _ = _
      rw [update_self, Option.getD_some, List.append_assoc]
      rfl
    · rw [List.filter_cons_of_neg (by rw [hp, hf]; simpa using Ne.symm hw)]
      show (update h.handlersByVector n _ w).getD [] ++ _ = _
      rw [update_of_ne hw]
  · cases List.mem_cons.mp hl with
    | inl hlv => rw [hlv, hf]; simp
    | inr hl => exact hrest.routed l hl hpl
  · by_cases hlv : l = v
    · refine hrest.present l (.inr ?_)
      rw [hlv, hself]
      simp
    · refine hrest.present l ?_
      rw [hother l hlv]
      exact hl.imp_left fun hl =>
        ⟨(List.mem_cons.mp hl.1).resolve_left hlv, hl.2⟩
  · by_cases hlv : l = v
    · rw [hlv]
      exact .inr ⟨List.mem_cons_self, hp⟩
    · have := hrest.null l hl
      rw [hother l hlv] at this
      exact this.imp_right fun hl => ⟨List.mem_cons_of_mem v hl.1, hl.2⟩

end Push

theorem populate_pushed {final : Label Domain → Option Nat} :
    ∀ {vertices : List (Label Domain)} {h h' : Handlers Domain},
      vertices.foldlM (pushHandler P final) h = .ok h' →
      Pushed P final vertices h h' := by
  intro vertices
  induction vertices with
  | nil =>
    intro h h' hrun
    cases hrun
    refine ⟨fun v => (List.append_nil _).symm, ?_, ?_, fun l hl => .inl hl⟩
    · intro l hl
      cases hl
    · intro l hl
      exact hl.resolve_left fun hx => List.not_mem_nil hx.1
  | cons v vertices ih =>
    intro h h' hrun
    rw [List.foldlM_cons, pushHandler_eq] at hrun
    cases hd : destination P final v with
    | error e => rw [hd] at hrun; cases hrun
    | ok o =>
      rw [hd] at hrun
      rcases destination_inv hd with ⟨rfl, hp⟩ | ⟨n, rfl, hp, hf⟩
      · exact (ih hrun).skip hp
      · exact (ih hrun).push hp hf

/-- A placeholder of the loop over the edges is one of a source. -/
theorem assignVectors_null (g : RoutingGraph P T) :
    ∀ {edges : List (Label Domain × Label Domain)} {n : Numbers Domain},
      (∀ e ∈ edges, e ∈ g.edges) →
      ∀ l, (edges.foldl (assignVector P) n).registeredHandlers l
          = some none →
        n.registeredHandlers l = some none
          ∨ l ∈ g.vertices ∧ isPureEmitter P l = true := by
  intro edges
  induction edges with
  | nil => intro n _ l hl; exact .inl hl
  | cons e edges ih =>
    intro n hin l hl
    cases ih (fun e' he' => hin e' (List.mem_cons_of_mem e he')) l hl with
    | inr h => exact .inr h
    | inl h =>
      unfold assignVector at h
      dsimp only at h
      split_ifs at h with hp
      · rw [Bool.and_eq_true] at hp
        by_cases hle : l = e.1
        · rw [hle]
          exact .inr ⟨g.source e (hin e List.mem_cons_self), hp.1⟩
        · rw [update_of_ne hle] at h
          exact .inl h
      · exact .inl h

theorem compute_null {n : Numbers Domain}
    (h : computeFinalVectorNumbers V g orderMap r = .ok n)
    (l : Label Domain) (hl : n.registeredHandlers l = some none) :
    r l = some none ∨ l ∈ g.vertices ∧ isPureEmitter P l = true := by
  obtain ⟨edgeList, hsort, h⟩ := bind_inv h
  cases h
  exact assignVectors_null g
    (fun e he => (V.perm _ _ _ hsort).mem_iff.mp he) l hl

-- ==== what is registered

/-- What a call teaches about the handlers. -/
def learn (known : Label Domain → Option Handler) :
    Call Domain Handler → Label Domain → Option Handler
  | .registerHandler l handler => update known l (some handler)
  | _ => known

/-- The handler registered last for each source. -/
def latest (calls : List (Call Domain Handler)) :
    Label Domain → Option Handler :=
  calls.foldl learn fun _ => none

/-- The label is a source that the last `updateRouting` has routed. -/
def Routed (P : Platform Domain) (s : State Domain Handler)
    (l : Label Domain) : Prop :=
  isPureEmitter P l = true
    ∧ ∃ T ∈ s.cachedGraph, l ∈ T.vertices.flatMap (labelsOf P)

instance (l : Label Domain) : Decidable (Routed P s l) :=
  inferInstanceAs (Decidable (_ ∧ _))

/-- A source that has been routed already has a handler already. -/
def HandlerFirst (P : Platform Domain) (s : State Domain Handler) :
    Call Domain Handler → Prop
  | .registerHandler l _ =>
    Routed P s l → (entry s.registeredHandlers l).isSome = true
  | _ => True

instance (c : Call Domain Handler) : Decidable (HandlerFirst P s c) := by
  cases c <;> unfold HandlerFirst <;> infer_instance

structure Known (P : Platform Domain) (s : State Domain Handler)
    (known : Label Domain → Option Handler) : Prop where
  cached : Cached P s
  reads : ∀ l, ((entry s.registeredHandlers l).bind fun ref =>
    s.handlers[ref]?) = known l
  valid : ∀ l ref, entry s.registeredHandlers l = some ref →
    ref < s.handlers.length
  distinct : ∀ l l' ref, entry s.registeredHandlers l = some ref →
    entry s.registeredHandlers l' = some ref → l = l'
  null : ∀ l, s.registeredHandlers l = some none → Routed P s l

omit [DecidableEq Domain] in
theorem Known.boot : Known P (State.boot : State Domain Handler)
    fun _ => none where
  cached := Cached.boot
  reads := fun _ => rfl
  valid := fun _ _ h => by cases h
  distinct := fun _ _ _ h => by cases h
  null := fun _ h => by cases h

variable {known : Label Domain → Option Handler}

section

variable (hk : Known P s known)
include hk

/-- The first handler of a source that was not routed, or a later one. -/
theorem Known.registerHandler_returns {handler : Handler}
    (hfirst : HandlerFirst P s (.registerHandler l handler)) :
    ∃ s', registerHandler l handler s = .ok s' := by
  unfold registerHandler
  cases hr : s.registeredHandlers l with
  | none => exact ⟨_, rfl⟩
  | some o =>
    cases o with
    | some ref => exact ⟨_, rfl⟩
    | none =>
      have := hfirst (hk.null l hr)
      unfold entry at this
      rw [hr] at this
      cases this

/-- Writing through the pointer changes no other label's handler. -/
theorem Known.overwrite {ref : Nat}
    (hr : entry s.registeredHandlers l = some ref) (handler : Handler) :
    Known P { s with handlers := s.handlers.set ref handler }
      (update known l (some handler)) := by
  refine ⟨⟨hk.cached.wf, hk.cached.emits, hk.cached.settled,
    hk.cached.sorted, hk.cached.released, hk.cached.current,
    hk.cached.grows⟩, fun k => ?_, fun k r h => ?_, hk.distinct, hk.null⟩
  · show ((entry s.registeredHandlers k).bind fun r =>
      (s.handlers.set ref handler)[r]?) = _
    by_cases hkl : k = l
    · rw [hkl, hr, update_self, Option.bind_some,
        List.getElem?_set_self (hk.valid l ref hr)]
    · rw [update_of_ne hkl, ← hk.reads k]
      cases hrk : entry s.registeredHandlers k with
      | none => rfl
      | some r =>
        have hne : ref ≠ r := fun hx => hkl (hk.distinct k l r hrk
          (by rw [hr, hx]))
        rw [Option.bind_some, Option.bind_some, List.getElem?_set_ne hne]
  · show r < (s.handlers.set ref handler).length
    rw [List.length_set]
    exact hk.valid k r h

/-- A new object for a label. -/
theorem Known.insert (l : Label Domain) (handler : Handler) : Known P { s with
        handlers := s.handlers ++ [handler]
        registeredHandlers := update s.registeredHandlers l
          (some (some s.handlers.length)) }
      (update known l (some handler)) := by
  have hself : entry (update s.registeredHandlers l
      (some (some s.handlers.length))) l = some s.handlers.length := by
    unfold entry
    rw [update_self]
    rfl
  have hother : ∀ k, k ≠ l → entry (update s.registeredHandlers l
      (some (some s.handlers.length))) k = entry s.registeredHandlers k := by
    intro k hkl
    unfold entry
    rw [update_of_ne hkl]
  refine ⟨⟨hk.cached.wf, hk.cached.emits, hk.cached.settled,
    hk.cached.sorted, hk.cached.released, hk.cached.current,
    hk.cached.grows⟩, fun k => ?_, fun k r h => ?_, fun k k' r h h' => ?_,
    fun k h => ?_⟩
  · show ((entry (update s.registeredHandlers l _) k).bind fun r =>
      (s.handlers ++ [handler])[r]?) = _
    by_cases hkl : k = l
    · rw [hkl, hself, update_self, Option.bind_some,
        List.getElem?_concat_length]
    · rw [hother k hkl, update_of_ne hkl, ← hk.reads k]
      cases hrk : entry s.registeredHandlers k with
      | none => rfl
      | some r =>
        rw [Option.bind_some, Option.bind_some,
          List.getElem?_append_left (hk.valid k r hrk)]
  · show r < (s.handlers ++ [handler]).length
    rw [List.length_append, List.length_singleton]
    by_cases hkl : k = l
    · rw [hkl, hself] at h
      cases h
      omega
    · rw [hother k hkl] at h
      have := hk.valid k r h
      omega
  · by_cases hkl : k = l
    · by_cases hkl' : k' = l
      · rw [hkl, hkl']
      · rw [hother k' hkl'] at h'
        rw [hkl, hself] at h
        cases h
        exact absurd (hk.valid k' _ h') (Nat.lt_irrefl _)
    · rw [hother k hkl] at h
      by_cases hkl' : k' = l
      · rw [hkl', hself] at h'
        cases h'
        exact absurd (hk.valid k _ h) (Nat.lt_irrefl _)
      · rw [hother k' hkl'] at h'
        exact hk.distinct k k' r h h'
  · by_cases hkl : k = l
    · rw [hkl] at h
      have h : update s.registeredHandlers l _ l = some none := h
      rw [update_self] at h
      cases h
    · have h : update s.registeredHandlers l _ k = some none := h
      rw [update_of_ne hkl] at h
      exact hk.null k h

theorem Known.registerHandler {handler : Handler}
    (h : registerHandler l handler s = .ok s') :
    Known P s' (update known l (some handler)) := by
  rcases registerHandler_inv h with ⟨ref, hr, rfl⟩ | ⟨hr, rfl⟩
  · refine hk.overwrite ?_ handler
    unfold entry
    rw [hr]
    rfl
  · exact hk.insert l handler

theorem Known.updateRouting {final : Label Domain → Option Nat}
    (h : updateRouting V policy s = .ok (s', final)) : Known P s' known := by
  have hc := hk.cached.updateRouting h
  obtain ⟨orderMap, n, hd, g₀, g, -, -, hn, hhd, -, hb, hh, hgraph, hr, -, -,
    -⟩ := updateRouting_installs hk.cached h
  have hentry : entry s'.registeredHandlers = entry s.registeredHandlers := by
    rw [hr, entry_populate hhd, entry_compute hn]
  refine ⟨hc, ?_, ?_, ?_, ?_⟩
  · rw [hentry, hh]
    exact hk.reads
  · rw [hentry, hh]
    exact hk.valid
  · rw [hentry]
    exact hk.distinct
  · -- the topology only grows, so an older placeholder's source is in it
    intro l hl
    have hvertex : l ∈ g.vertices ∧ isPureEmitter P l = true →
        Routed P s' l := fun hx => ⟨hx.2, s.builder, hgraph, hx.1⟩
    rw [hr] at hl
    cases (populate_pushed hhd).null l hl with
    | inr h => exact hvertex h
    | inl h =>
      cases compute_null hn l h with
      | inr h => exact hvertex h
      | inl h =>
        obtain ⟨hp, T, hT, hl⟩ := hk.null l h
        refine hvertex ⟨?_, hp⟩
        obtain ⟨d, hd, hl⟩ := List.mem_flatMap.mp hl
        exact List.mem_flatMap.mpr ⟨d, hk.cached.grows T hT d hd, hl⟩

theorem Known.step {r : Option (Label Domain → Option Nat)}
    (h : step V policy s c = .ok (s', r)) : Known P s' (learn known c) := by
  have hc := hk.cached.step h
  rcases step_inv h with ⟨d, rfl, hs⟩ | ⟨a, b, rfl, hs⟩ | ⟨l, f, rfl, hs⟩ |
    ⟨final, rfl, hs, -⟩
  · obtain ⟨-, rfl⟩ := registerDomain_inv hs
    exact ⟨hc, hk.reads, hk.valid, hk.distinct, hk.null⟩
  · obtain ⟨-, -, -, rfl⟩ := registerConnector_inv hs
    exact ⟨hc, hk.reads, hk.valid, hk.distinct, hk.null⟩
  · exact hk.registerHandler hs
  · exact hk.updateRouting hs

end

/-- Every run knows the handlers its calls have registered. -/
theorem Known.run {calls : List (Call Domain Handler)}
    {rs : List (Option (Label Domain → Option Nat))}
    (h : run (Manager.step V policy) State.boot calls = .ok (s, rs)) :
    Known P s (latest calls) :=
  run_tracks (fun _ _ _ _ _ hk hs => hk.step hs) Known.boot h

-- ==== the installed lists

/-- The lists hold the entries of the sources of `g`, by their vectors,
and every source has an entry. -/
structure Installed (g : RoutingGraph P T)
    (final : Label Domain → Option Nat) (s : State Domain Handler) :
    Prop where
  lists : ∀ v, (s.handlersByVector v).getD []
    = (sourcesOf P final g.vertices v).map (entry s.registeredHandlers)
  present : ∀ l ∈ g.vertices, isPureEmitter P l = true →
    s.registeredHandlers l ≠ none

/-- After that only routing again changes the lists. -/
theorem Installed.step {final : Label Domain → Option Nat}
    {r : Option (Label Domain → Option Nat)} (hi : Installed g final s)
    (hne : c ≠ .updateRouting) (h : step V policy s c = .ok (s', r)) :
    Installed g final s' := by
  rcases step_inv h with ⟨d, rfl, hs⟩ | ⟨a, b, rfl, hs⟩ | ⟨l, f, rfl, hs⟩ |
    ⟨final, rfl, hs, -⟩
  · obtain ⟨-, rfl⟩ := registerDomain_inv hs
    exact ⟨hi.lists, hi.present⟩
  · obtain ⟨-, -, -, rfl⟩ := registerConnector_inv hs
    exact ⟨hi.lists, hi.present⟩
  · rcases registerHandler_inv hs with ⟨ref, -, rfl⟩ | ⟨hr, rfl⟩
    · exact ⟨hi.lists, hi.present⟩
    · -- a label that had no entry is not a source of the graph
      refine ⟨fun v => ?_, fun k hk hp => ?_⟩
      · refine (hi.lists v).trans (List.map_congr_left fun k hk => ?_)
        obtain ⟨hkv, hk⟩ := List.mem_filter.mp hk
        rw [Bool.and_eq_true] at hk
        have hkl : k ≠ l := by
          intro hkl
          rw [hkl] at hkv hk
          exact hi.present l hkv hk.1 hr
        show (s.registeredHandlers k).getD none
          = (update s.registeredHandlers l _ k).getD none
        rw [update_of_ne hkl]
      · show update s.registeredHandlers l _ k ≠ none
        by_cases hkl : k = l
        · rw [hkl, update_self]
          simp
        · rw [update_of_ne hkl]
          exact hi.present k hk hp
  · exact absurd rfl hne

omit [DecidableEq Domain] in
theorem vertices_nodup (P : Platform Domain) {domains : List Domain}
    (h : domains.Nodup) : (domains.flatMap (labelsOf P)).Nodup := by
  have hinj : ∀ d : Domain, Injective
      fun j => (⟨d, j⟩ : Label Domain) := fun d i j hij =>
    congrArg Label.index hij
  have hdomain : ∀ d, ∀ l ∈ labelsOf P d, l.domain = d := by
    intro d l hl
    obtain ⟨j, -, rfl⟩ := List.mem_map.mp hl
    rfl
  rw [List.nodup_flatMap]
  refine ⟨fun d _ => List.nodup_range.map (hinj d),
    h.imp fun hne l hl hl' => hne ?_⟩
  rw [← hdomain _ l hl, hdomain _ l hl']

/-- What an `updateRouting` installs, with the policy's graph. -/
theorem updateRouting_installed {final : Label Domain → Option Nat}
    (hc : Cached P s) (h : updateRouting V policy s = .ok (s', final)) :
    ∃ g, policy s.builder = .ok g ∧ Installed g final s'
      ∧ ∀ l ∈ g.vertices, isPureEmitter P l = true → ∀ v,
        final l = some v ↔ RoutesTo g l v := by
  obtain ⟨orderMap, n, hd, g₀, g, hg₀, hedges, hn, hhd, rfl, -, -, -, hr, hv,
    -, -⟩ := updateRouting_installs hc h
  have hpushed := populate_pushed hhd
  have hroutes : ∀ l v, RoutesTo g l v ↔ RoutesTo g₀ l v := by
    intro l v
    unfold RoutesTo
    rw [hedges]
  refine ⟨g₀, hg₀, ⟨fun v => ?_, fun l hl hp => ?_⟩, fun l hl hp v => ?_⟩
  · rw [hv, hpushed.lists v, hr, entry_populate hhd]
    rfl
  · rw [hr]
    exact hpushed.present l (.inl ⟨hl, hp⟩)
  · rw [← hroutes]
    refine ⟨compute_sound hn l v, fun hroute => ?_⟩
    cases hf : n.finalVectorNumber l with
    | none => exact absurd hf (hpushed.routed l hl hp)
    | some w =>
      rw [(compute_sound hn l w hf).unique hc.emits hroute]

-- ==== the result

/-- While each source that has been routed has its first handler before
that, no registration writes through a null pointer; and after the last
`updateRouting` a vector runs, for each pure emitter routed to it, the
handler registered last. -/
theorem dispatch_latest (V : VectorSort) (policy : Policy P)
    (calls : List (Call Domain Handler))
    (hfirst : Along (step V policy) (HandlerFirst P) State.boot calls) :
    (∀ pre l handler post s rs,
      calls = pre ++ .registerHandler l handler :: post →
      run (step V policy) State.boot pre = .ok (s, rs) →
      ∃ s', registerHandler l handler s = .ok s')
    ∧ ∀ pre post s rs, calls = pre ++ .updateRouting :: post →
      .updateRouting ∉ post →
      run (step V policy) State.boot calls = .ok (s, rs) →
      ∃ s₀ qs g, run (step V policy) State.boot pre = .ok (s₀, qs)
        ∧ policy s₀.builder = .ok g
        ∧ ∀ v, ∃ sources : List (Label Domain), sources.Nodup
          ∧ (∀ l, l ∈ sources ↔ l ∈ g.vertices ∧ isPureEmitter P l = true
            ∧ RoutesTo g l v)
          ∧ (dispatchInterrupt s v).2
            = sources.filterMap (latest calls) := by
  refine ⟨fun pre l handler post s rs hcalls hrun => ?_,
    fun pre post s rs hcalls hpost hrun => ?_⟩
  · rw [hcalls] at hfirst
    exact (Known.run hrun).registerHandler_returns
      (Along_append_right hfirst hrun).1
  · have hknown := Known.run hrun
    rw [hcalls] at hrun
    obtain ⟨s₀, qs, ps, hpre, hrest, -⟩ := run_append_inv hrun
    obtain ⟨s₁, r, ps', hstep, hpostrun, -⟩ := run_cons_inv hrest
    obtain ⟨⟨t, final⟩, hupdate, hstep⟩ := bind_inv hstep
    cases hstep
    have hc := (Known.run hpre).cached
    obtain ⟨g, hg, hinstalled, hfinal⟩ := updateRouting_installed hc hupdate
    have hothers : ∀ c ∈ post, c ≠ .updateRouting := fun c hc hx =>
      hpost (by rw [← hx]; exact hc)
    have hend : Installed g final s :=
      run_invariant (fun _ _ _ _ hi hne hs => hi.step hne hs) hinstalled
        hothers hpostrun
    refine ⟨s₀, qs, g, hpre, hg, fun v => ⟨sourcesOf P final g.vertices v,
      (vertices_nodup P hc.wf.nodup).filter _, fun l => ?_, ?_⟩⟩
    · rw [sourcesOf, List.mem_filter, Bool.and_eq_true, beq_iff_eq]
      refine and_congr_right fun hl => and_congr_right fun hp => ?_
      exact hfinal l hl hp v
    · show ((s.handlersByVector v).getD []).filterMap _ = _
      rw [hend.lists v, List.filterMap_map]
      exact List.filterMap_congr fun l _ => hknown.reads l

/-- The disk's handler is registered before routing and replaced after
it; the timer, connected later, has none. -/
def machineHandlers : List (Call Device Nat) :=
  machineSetup ++ [.registerHandler ⟨.disk, 0⟩ 1, .updateRouting,
    .registerHandler ⟨.disk, 0⟩ 2]

theorem machineHandlers_first : Along (step smallSort machinePolicy)
    (HandlerFirst machine) State.boot machineHandlers := by
  decide +kernel

theorem machineHandlers_returns : Returns
    (fun p => (dispatchInterrupt p.1 32).2 = [2])
    (run (step smallSort machinePolicy) State.boot machineHandlers) := by
  decide +kernel

/-- Vector 32 runs the disk's second handler. -/
theorem dispatch_latest_disk : ∃ s rs,
    run (step smallSort machinePolicy) State.boot machineHandlers
      = .ok (s, rs)
    ∧ (dispatchInterrupt s 32).2 = [2]
    ∧ (∀ pre l handler post s rs,
      machineHandlers = pre ++ .registerHandler l handler :: post →
      run (step smallSort machinePolicy) State.boot pre = .ok (s, rs) →
      ∃ s', registerHandler l handler s = .ok s')
    ∧ ∃ s₀ qs g, run (step smallSort machinePolicy) State.boot
        (machineSetup ++ [.registerHandler ⟨.disk, 0⟩ 1]) = .ok (s₀, qs)
      ∧ machinePolicy s₀.builder = .ok g
      ∧ ∀ v, ∃ sources : List (Label Device), sources.Nodup
        ∧ (∀ l, l ∈ sources ↔ l ∈ g.vertices ∧ isPureEmitter machine l = true
          ∧ RoutesTo g l v)
        ∧ (dispatchInterrupt s v).2
          = sources.filterMap (latest machineHandlers) := by
  obtain ⟨⟨s, rs⟩, hrun, hdisk⟩ := machineHandlers_returns.exists_ok
  obtain ⟨hwrites, hdispatch⟩ := dispatch_latest smallSort machinePolicy
    machineHandlers machineHandlers_first
  exact ⟨s, rs, hrun, hdisk, hwrites, hdispatch
    (machineSetup ++ [.registerHandler ⟨.disk, 0⟩ 1])
    [.registerHandler ⟨.disk, 0⟩ 2] s rs rfl (by decide) hrun⟩

/-- The disk is routed before it has a handler: registering its first
writes through the placeholder, which is null. -/
theorem first_handler_after_routing_derefs_null : ∃ s rs,
    run (step smallSort machinePolicy) State.boot
      (machineSetup ++ [.updateRouting]) = .ok (s, rs)
    ∧ registerHandler ⟨.disk, 0⟩ 1 s = .error .nullDeref := by
  decide +kernel

end CroCOS.Interrupts.Manager
