/-
The stack of chains is linearizable as long as no call sees as many
pushes complete as the head word has tags.

# The invariant

`Good` ties the memory to the stack of chains the finished calls left:
the head word holds the top node and the number of completed pushes
modulo the tag count, the heads of the chains are linked by `next`, the
nodes of each chain by `chainNext`, and each head carries its chain's
length.

# Late readers

A call that loaded the head may go on reading the top node's fields
long after others have popped, rewritten and pushed it again. `Recent`
is what it may rely on: as long as no push has completed since the
load, the node it found is still on top, with the fields it read, or it
is not in the stack at all, because pops only take chains off. So a
word that matches, pointer and tag, says both that no push completed
and that the node is in the stack: it is the same top.
-/
import CroCOS.ChainedTreiberStack

namespace CroCOS.Core.ChainedTreiberStack

open Lib

variable {Node : Type}
variable {R : Chain Node → ChainStack Node → Prop} {p : Node}

-- ==== the lists

section Stack

variable {s cs : ChainStack Node} {c : Chain Node} {n : Node}

@[simp] theorem ChainStack.nodes_cons :
    ChainStack.nodes (c :: cs) = c.nodes ++ ChainStack.nodes cs := rfl

theorem Chain.head_mem (c : Chain Node) : c.head ∈ c.nodes :=
  List.mem_cons_self

/-- The top node is in the stack. -/
theorem ChainStack.top_mem (h : s.top = some n) : n ∈ s.nodes := by
  cases s with
  | nil => cases h
  | cons c cs =>
    cases h
    exact List.mem_append_left _ c.head_mem

theorem ChainStack.top_eq_some (h : s.top = some n) :
    ∃ c cs, s = c :: cs ∧ c.head = n := by
  cases s with
  | nil => cases h
  | cons c cs =>
    cases h
    exact ⟨c, cs, rfl, rfl⟩

theorem ChainStack.top_eq_none (h : s.top = none) : s = [] := by
  cases s with
  | nil => rfl
  | cons c cs => cases h

theorem ChainStack.mem_nodes (hc : c ∈ s) (hn : n ∈ c.nodes) : n ∈ s.nodes :=
  List.mem_flatMap.mpr ⟨c, hc, hn⟩

end Stack

-- ==== the invariant

/-- What every step keeps of the shared state. `alive` are the nodes
there were at the start. -/
structure Good (E : HeadEncoding Node) (alive : Node → Prop)
    (d : Shared Node) : Prop where
  head : d.head = E.pack d.chains.top (d.pushes % E.tagCount)
  heads : Spells d.next d.chains.top (d.chains.map Chain.head)
  linked : ∀ c ∈ d.chains, Spells d.chainNext (some c.head) c.nodes
    ∧ d.chainDepth c.head = c.length
  nodup : d.chains.nodes.Nodup
  inside : ∀ n ∈ d.chains.nodes, d.owner n = none ∧ E.fits n = true
  kept : ∀ n, alive n → (d.owner n).isSome ∨ n ∈ d.chains.nodes

/-- Thread `t` may push node `n`. -/
def Owns (E : HeadEncoding Node) (d : Shared Node) (t : Nat) (n : Node) :
    Prop :=
  d.owner n = some t ∧ E.fits n = true

/-- Thread `t` may push the chain `c`. -/
structure OwnsChain (E : HeadEncoding Node) (d : Shared Node) (t : Nat)
    (c : Chain Node) : Prop where
  owns : ∀ n ∈ c.nodes, Owns E d t n
  nodup : c.nodes.Nodup
  spells : Spells d.chainNext (some c.head) c.nodes
  depth : d.chainDepth c.head = c.length

/-- The head word `old` was loaded by a call made when `since` pushes
had completed. -/
structure Loaded (E : HeadEncoding Node) (d : Shared Node) (since : Nat)
    (old : Snapshot) : Prop where
  since : since ≤ old.pushes
  past : old.pushes ≤ d.pushes
  tag : E.unpackTag old.word = old.pushes % E.tagCount

/-- As long as no push has completed since the load, the node found on
top is still there, on a chain and a stack that `R` holds of, or it has
left the stack. -/
def Recent (d : Shared Node) (old : Snapshot) (topPtr : Node)
    (R : Chain Node → ChainStack Node → Prop) : Prop :=
  d.pushes = old.pushes →
    (∃ c cs, d.chains = c :: cs ∧ c.head = topPtr ∧ R c cs)
      ∨ topPtr ∉ d.chains.nodes

/-- The plan a push has made from what it loaded. -/
def Plan.Ok (E : HeadEncoding Node) (d : Shared Node) (kmax : Nat)
    (old : Snapshot) : Plan Node → Prop
  | .singleton none => E.unpackPointer old.word = none
  | .singleton (some topPtr) =>
    E.unpackPointer old.word = some topPtr
      ∧ Recent d old topPtr fun c _ => kmax ≤ c.length
  | .extend topPtr topDepth =>
    E.unpackPointer old.word = some topPtr
      ∧ Recent d old topPtr fun c _ =>
        topDepth = c.length ∧ c.length < kmax

/-- The next link that goes with the plan. -/
def Plan.NextOk (d : Shared Node) (old : Snapshot) (next : Option Node) :
    Plan Node → Prop
  | .singleton next' => next = next'
  | .extend topPtr _ =>
    Recent d old topPtr fun _ cs => next = ChainStack.top cs

/-- What thread `t` knows when its call's frame is `f`. -/
def FrameOk (E : HeadEncoding Node) (t : Nat) (d : Shared Node)
    (since : Nat) : Frame Node → Prop
  | .pushLoad n => Owns E d t n
  | .pushMax n old =>
    Owns E d t n ∧ Loaded E d since old
      ∧ ∀ p, E.unpackPointer old.word = some p → Recent d old p fun _ _ => True
  | .pushTop n _ old =>
    Owns E d t n ∧ Loaded E d since old
      ∧ ∀ p, E.unpackPointer old.word = some p → Recent d old p fun _ _ => True
  | .pushChainNext n kmax old plan =>
    Owns E d t n ∧ Loaded E d since old ∧ plan.Ok E d kmax old
  | .pushChainDepth n kmax old plan =>
    Owns E d t n ∧ Loaded E d since old ∧ plan.Ok E d kmax old
      ∧ d.chainNext n = plan.chainNext
  | .pushReadNext n kmax old topPtr topDepth =>
    Owns E d t n ∧ Loaded E d since old
      ∧ (Plan.extend topPtr topDepth).Ok E d kmax old
      ∧ d.chainNext n = some topPtr ∧ d.chainDepth n = topDepth + 1
  | .pushNext n kmax old plan next =>
    Owns E d t n ∧ Loaded E d since old ∧ plan.Ok E d kmax old
      ∧ d.chainNext n = plan.chainNext
      ∧ d.chainDepth n = plan.chainDepth ∧ plan.NextOk d old next
  | .pushCas n kmax old plan next =>
    Owns E d t n ∧ Loaded E d since old ∧ plan.Ok E d kmax old
      ∧ d.chainNext n = plan.chainNext
      ∧ d.chainDepth n = plan.chainDepth ∧ plan.NextOk d old next
      ∧ d.next n = next
  | .chainLoad c => OwnsChain E d t c
  | .chainNext c old => OwnsChain E d t c ∧ Loaded E d since old
  | .chainCas c old =>
    OwnsChain E d t c ∧ Loaded E d since old
      ∧ d.next c.head = E.unpackPointer old.word
  | .popLoad => True
  | .popDepth old topPtr =>
    Loaded E d since old ∧ E.unpackPointer old.word = some topPtr
      ∧ Recent d old topPtr fun _ _ => True
  | .popNext old topPtr depth =>
    Loaded E d since old ∧ E.unpackPointer old.word = some topPtr
      ∧ Recent d old topPtr fun c _ => depth = c.length
  | .popCas old topPtr depth next =>
    Loaded E d since old ∧ E.unpackPointer old.word = some topPtr
      ∧ Recent d old topPtr fun c cs =>
        depth = c.length ∧ next = ChainStack.top cs

/-- What thread `t` knows. -/
def Own (E : HeadEncoding Node) (t : Nat) (d : Shared Node)
    (l : Option (Pending Node)) : Prop :=
  ∀ p, l = some p → p.since ≤ d.pushes ∧ FrameOk E t d p.since p.frame

-- ==== the guarantee

/-- What a step of thread `u` owes everyone. -/
structure Does (E : HeadEncoding Node) (alive : Node → Prop) (u : Nat)
    (d d' : Shared Node) : Prop where
  good : Good E alive d'
  pushes : d.pushes ≤ d'.pushes
  /-- It writes its own nodes only. -/
  fields : ∀ n, d.owner n ≠ some u → d'.next n = d.next n
    ∧ d'.chainNext n = d.chainNext n ∧ d'.chainDepth n = d.chainDepth n
  owner : ∀ n t, t ≠ u → d.owner n = some t → d'.owner n = some t
  /-- Without a push, chains are only taken off. -/
  chains : d'.pushes = d.pushes →
    d'.chains = d.chains ∨ d'.chains = d.chains.tail

section Keep

variable {E : HeadEncoding Node} {alive : Node → Prop}
variable {d d' : Shared Node} {t u since : Nat} {old : Snapshot}

theorem Owns.keep {n : Node} (hd : Does E alive u d d') (ht : t ≠ u)
    (h : Owns E d t n) : Owns E d' t n :=
  ⟨hd.owner n t ht h.1, h.2⟩

theorem Does.fields_of_owns {n : Node} (hd : Does E alive u d d')
    (ht : t ≠ u) (h : Owns E d t n) : d'.next n = d.next n
      ∧ d'.chainNext n = d.chainNext n
      ∧ d'.chainDepth n = d.chainDepth n := by
  refine hd.fields n fun hu => ht ?_
  rw [h.1] at hu
  exact Option.some.inj hu

theorem OwnsChain.keep {c : Chain Node} (hd : Does E alive u d d')
    (ht : t ≠ u) (h : OwnsChain E d t c) : OwnsChain E d' t c where
  owns := fun n hn => (h.owns n hn).keep hd ht
  nodup := h.nodup
  spells := h.spells.congr fun n hn =>
    (hd.fields_of_owns ht (h.owns n hn)).2.1
  depth := by
    rw [(hd.fields_of_owns ht (h.owns c.head c.head_mem)).2.2, h.depth]

theorem Loaded.keep (hd : Does E alive u d d') (h : Loaded E d since old) :
    Loaded E d' since old :=
  ⟨h.since, Nat.le_trans h.past hd.pushes, h.tag⟩

/-- A pop takes the top off for good; nothing else happens to it
without a push. -/
theorem Recent.keep (hg : Good E alive d) (hd : Does E alive u d d')
    (hl : old.pushes ≤ d.pushes) (h : Recent d old p R) :
    Recent d' old p R := by
  intro hp
  have hle := hd.pushes
  have hsame : d'.pushes = d.pushes := by omega
  have h := h (by omega)
  cases hd.chains hsame with
  | inl hc =>
    rw [hc]
    exact h
  | inr hc =>
    rw [hc]
    refine Or.inr ?_
    cases h with
    | inl htop =>
      obtain ⟨c, cs, hcs, hp, -⟩ := htop
      have hnodup := hg.nodup
      rw [hcs, ChainStack.nodes_cons, List.nodup_append] at hnodup
      rw [hcs, ← hp]
      intro hmem
      exact hnodup.2.2 c.head c.head_mem c.head hmem rfl
    | inr hout =>
      intro hmem
      refine hout ?_
      cases hcs : d.chains with
      | nil =>
        rw [hcs] at hmem
        exact hmem
      | cons c cs =>
        rw [hcs] at hmem
        exact List.mem_append_right _ hmem

theorem Plan.Ok.keep {kmax : Nat} {plan : Plan Node}
    (hg : Good E alive d) (hd : Does E alive u d d')
    (hl : old.pushes ≤ d.pushes) (h : plan.Ok E d kmax old) :
    plan.Ok E d' kmax old := by
  cases plan with
  | singleton next =>
    cases next with
    | none => exact h
    | some p => exact ⟨h.1, h.2.keep hg hd hl⟩
  | extend p depth => exact ⟨h.1, h.2.keep hg hd hl⟩

theorem Plan.NextOk.keep {next : Option Node} {plan : Plan Node}
    (hg : Good E alive d) (hd : Does E alive u d d')
    (hl : old.pushes ≤ d.pushes) (h : plan.NextOk d old next) :
    plan.NextOk d' old next := by
  cases plan with
  | singleton next => exact h
  | extend p depth => exact Recent.keep hg hd hl h

/-- A frame survives a step of another thread. -/
theorem FrameOk.keep {f : Frame Node} (hg : Good E alive d)
    (hd : Does E alive u d d') (ht : t ≠ u) (h : FrameOk E t d since f) :
    FrameOk E t d' since f := by
  cases f with
  | pushLoad n => exact Owns.keep hd ht h
  | pushMax n old | pushTop n kmax old =>
    obtain ⟨ho, hl, hr⟩ := h
    exact ⟨ho.keep hd ht, hl.keep hd,
      fun p hp => (hr p hp).keep hg hd hl.past⟩
  | pushChainNext n kmax old plan =>
    obtain ⟨ho, hl, hp⟩ := h
    exact ⟨ho.keep hd ht, hl.keep hd, hp.keep hg hd hl.past⟩
  | pushChainDepth n kmax old plan =>
    obtain ⟨ho, hl, hp, hc⟩ := h
    obtain ⟨-, hfc, -⟩ := hd.fields_of_owns ht ho
    exact ⟨ho.keep hd ht, hl.keep hd, hp.keep hg hd hl.past,
      by rw [hfc, hc]⟩
  | pushReadNext n kmax old p depth =>
    obtain ⟨ho, hl, hp, hc, hdep⟩ := h
    obtain ⟨-, hfc, hfd⟩ := hd.fields_of_owns ht ho
    exact ⟨ho.keep hd ht, hl.keep hd, hp.keep hg hd hl.past,
      by rw [hfc, hc], by rw [hfd, hdep]⟩
  | pushNext n kmax old plan next =>
    obtain ⟨ho, hl, hp, hc, hdep, hn⟩ := h
    obtain ⟨-, hfc, hfd⟩ := hd.fields_of_owns ht ho
    exact ⟨ho.keep hd ht, hl.keep hd, hp.keep hg hd hl.past,
      by rw [hfc, hc], by rw [hfd, hdep], hn.keep hg hd hl.past⟩
  | pushCas n kmax old plan next =>
    obtain ⟨ho, hl, hp, hc, hdep, hn, hnx⟩ := h
    obtain ⟨hfn, hfc, hfd⟩ := hd.fields_of_owns ht ho
    exact ⟨ho.keep hd ht, hl.keep hd, hp.keep hg hd hl.past,
      by rw [hfc, hc], by rw [hfd, hdep], hn.keep hg hd hl.past,
      by rw [hfn, hnx]⟩
  | chainLoad c => exact OwnsChain.keep hd ht h
  | chainNext c old => exact ⟨h.1.keep hd ht, h.2.keep hd⟩
  | chainCas c old =>
    obtain ⟨ho, hl, hn⟩ := h
    obtain ⟨hfn, -, -⟩ :=
      hd.fields_of_owns ht (ho.owns c.head c.head_mem)
    exact ⟨ho.keep hd ht, hl.keep hd, by rw [hfn, hn]⟩
  | popLoad => trivial
  | popDepth old p | popNext old p depth | popCas old p depth next =>
    exact ⟨h.1.keep hd, h.2.1, h.2.2.keep hg hd h.1.past⟩

end Keep

-- ==== what a match says

section Match

variable {E : HeadEncoding Node} {alive : Node → Prop} {d : Shared Node}
variable {since : Nat} {old : Snapshot}

section

variable (hg : Good E alive d)
include hg

theorem Good.fits_top : ∀ n ∈ d.chains.top, E.fits n = true := by
  intro n hn
  exact (hg.inside n (ChainStack.top_mem hn)).2

/-- The head word points to the top node. -/
theorem Good.unpackPointer : E.unpackPointer d.head = d.chains.top := by
  rw [hg.head, E.unpackPointer_pack _ _ hg.fits_top]

/-- The head word counts the pushes. -/
theorem Good.unpackTag : E.unpackTag d.head = d.pushes % E.tagCount := by
  rw [hg.head, E.unpackTag_pack _ _ hg.fits_top (Nat.mod_lt _ E.tagCount_pos)]

/-- The link of the top chain's head leads to the next chain. -/
theorem Good.next_top {c : Chain Node} {cs : ChainStack Node}
    (hc : d.chains = c :: cs) : d.next c.head = ChainStack.top cs := by
  have h := hg.heads
  rw [hc] at h
  have hrest := h.2
  cases cs with
  | nil => exact hrest
  | cons c' cs => exact hrest.1

/-- A load of the head, as the call keeps it. -/
theorem Good.loaded (h : since ≤ d.pushes) :
    Loaded E d since ⟨d.head, d.pushes⟩ :=
  ⟨h, le_rfl, hg.unpackTag⟩

theorem Good.recent (hp : E.unpackPointer d.head = some p) :
    Recent d ⟨d.head, d.pushes⟩ p fun _ _ => True := by
  intro _
  rw [hg.unpackPointer] at hp
  obtain ⟨c, cs, hc, hh⟩ := ChainStack.top_eq_some hp
  exact Or.inl ⟨c, cs, hc, hh, trivial⟩

end

/-- What is read off the node while it is on top is right. -/
theorem Recent.read {R' : Chain Node → ChainStack Node → Prop}
    (h : Recent d old p R)
    (hread : ∀ c cs, d.chains = c :: cs → c.head = p → R c cs → R' c cs) :
    Recent d old p R' := by
  intro hp
  refine (h hp).imp_left fun htop => ?_
  obtain ⟨c, cs, hc, hh, hR⟩ := htop
  exact ⟨c, cs, hc, hh, hread c cs hc hh hR⟩

/-- Fewer pushes than tags: equal tags, no push. -/
theorem Loaded.current (hl : Loaded E d since old) (hg : Good E alive d)
    (hfew : d.pushes < since + E.tagCount) (hcas : d.head = old.word) :
    d.pushes = old.pushes := by
  have htag := hl.tag
  rw [← hcas, hg.unpackTag] at htag
  have hdvd : E.tagCount ∣ d.pushes - old.pushes :=
    (Nat.modEq_iff_dvd' hl.past).mp htag.symm
  have hlt : d.pushes - old.pushes < E.tagCount := by
    have := hl.since
    have := hl.past
    omega
  have hzero := Nat.eq_zero_of_dvd_of_lt hdvd hlt
  have := hl.past
  omega

/-- The word matches: the top is the one that was read. -/
theorem Recent.current (h : Recent d old p R) (hg : Good E alive d)
    (hp : d.pushes = old.pushes) (hcas : d.head = old.word)
    (hptr : E.unpackPointer old.word = some p) :
    ∃ c cs, d.chains = c :: cs ∧ c.head = p ∧ R c cs := by
  refine (h hp).resolve_right fun hout => hout ?_
  rw [← hcas, hg.unpackPointer] at hptr
  exact ChainStack.top_mem hptr

end Match

end CroCOS.Core.ChainedTreiberStack
