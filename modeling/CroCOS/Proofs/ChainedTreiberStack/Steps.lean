/-
Steps of the stack. What a step can do to the shared state comes first
(`Does`, one lemma for each kind of write); then, for each frame of a
call, that its step goes on as the frame says or answers what the stack
of chains answers.
-/
import CroCOS.Proofs.ChainedTreiberStack.Invariant

namespace CroCOS.Core.ChainedTreiberStack

open Function Lib

variable {Node : Type}
variable {c : Chain Node} {depth kmax : Nat} {n p : Node}
variable {next : Option Node} {plan : Plan Node}

-- ==== what a step does

variable {E : HeadEncoding Node} {alive : Node → Prop} {d : Shared Node}
variable {t since : Nat} {old : Snapshot}

/-- A step that changes nothing but the length of future chains. -/
theorem Does.refl (hg : Good E alive d) (kmax : Nat) :
    Does E alive t d { d with maxChainLength := kmax } where
  good := ⟨hg.head, hg.heads, hg.linked, hg.nodup, hg.inside, hg.kept⟩
  pushes := le_rfl
  fields := fun _ _ => ⟨rfl, rfl, rfl⟩
  owner := fun _ _ _ h => h
  chains := fun _ => Or.inl rfl

/-- Nodes in the stack belong to nobody. -/
theorem Good.ne_of_owned (hg : Good E alive d) {n' : Node}
    (hn : d.owner n = some t) (hn' : n' ∈ d.chains.nodes) : n' ≠ n := by
  intro he
  rw [he] at hn'
  rw [(hg.inside n hn').1] at hn
  cases hn

/-- The word a matching push publishes. -/
theorem Good.pushedWord_eq (hg : Good E alive d) (n : Node)
    (hcas : d.head = old.word) :
    pushedWord E n old = E.pack (some n) ((d.pushes + 1) % E.tagCount) := by
  unfold pushedWord
  rw [← hcas, hg.unpackTag, E.advanceTag_eq _ (Nat.mod_lt _ E.tagCount_pos),
    Nat.mod_add_mod]

variable [DecidableEq Node]

section

variable (hg : Good E alive d)
include hg

/-- A thread writes the fields of a node it owns. -/
theorem Does.writes (hn : d.owner n = some t) (nx cn : Option Node)
    (depth : Nat) : Does E alive t d { d with
      next := update d.next n nx
      chainNext := update d.chainNext n cn
      chainDepth := update d.chainDepth n depth } where
  good := by
    have hout : ∀ c ∈ d.chains, ∀ n' ∈ c.nodes, n' ≠ n :=
      fun c hc n' hn' => hg.ne_of_owned hn (ChainStack.mem_nodes hc hn')
    refine ⟨hg.head, ?_, ?_, hg.nodup, hg.inside, hg.kept⟩
    · refine hg.heads.update ?_ nx
      intro hmem
      obtain ⟨c, hc, hh⟩ := List.mem_map.mp hmem
      exact hout c hc c.head c.head_mem hh
    · intro c hc
      obtain ⟨hs, hdep⟩ := hg.linked c hc
      refine ⟨hs.update (fun hmem => hout c hc n hmem rfl) cn, ?_⟩
      show update d.chainDepth n depth c.head = c.length
      rw [update_of_ne (hout c hc c.head c.head_mem), hdep]
  pushes := le_rfl
  fields := by
    intro n' hn'
    have hne : n' ≠ n := by
      intro he
      rw [he] at hn'
      exact hn' hn
    exact ⟨update_of_ne hne .., update_of_ne hne .., update_of_ne hne ..⟩
  owner := fun _ _ _ h => h
  chains := fun _ => Or.inl rfl

theorem Does.writesNext (hn : d.owner n = some t) (nx : Option Node) :
    Does E alive t d { d with next := update d.next n nx } := by
  have h := Does.writes hg hn nx (d.chainNext n) (d.chainDepth n)
  rw [update_eq_self, update_eq_self] at h
  exact h

theorem Does.writesChainNext (hn : d.owner n = some t) (cn : Option Node) :
    Does E alive t d { d with chainNext := update d.chainNext n cn } := by
  have h := Does.writes hg hn (d.next n) cn (d.chainDepth n)
  rw [update_eq_self, update_eq_self] at h
  exact h

theorem Does.writesChainDepth (hn : d.owner n = some t) (depth : Nat) :
    Does E alive t d { d with chainDepth := update d.chainDepth n depth } := by
  have h := Does.writes hg hn (d.next n) (d.chainNext n) depth
  rw [update_eq_self, update_eq_self] at h
  exact h

/-- A thread hands a node to another. -/
theorem Does.gives (hn : d.owner n = some t) (u : Nat) :
    Does E alive t d { d with
      owner := update d.owner n (some u) } where
  good := by
    refine ⟨hg.head, hg.heads, hg.linked, hg.nodup, ?_, ?_⟩
    · intro n' hn'
      show update d.owner n (some u) n' = none ∧ _
      rw [update_of_ne (hg.ne_of_owned hn hn')]
      exact hg.inside n' hn'
    · intro n' hn'
      show (update d.owner n (some u) n').isSome ∨ _
      by_cases he : n' = n
      · rw [he, update_self]
        exact Or.inl rfl
      · rw [update_of_ne he]
        exact hg.kept n' hn'
  pushes := le_rfl
  fields := fun _ _ => ⟨rfl, rfl, rfl⟩
  owner := by
    intro n' t' ht hn'
    show update d.owner n (some u) n' = some t'
    rw [update_of_ne]
    · exact hn'
    · intro he
      rw [he, hn] at hn'
      exact ht (Option.some.inj hn').symm
  chains := fun _ => Or.inl rfl

/-- A push publishes a stack that holds the nodes there were and the
pushed ones. -/
theorem Does.publishes {s : ChainStack Node} {neu : Nat}
    (hown : ∀ n ∈ c.nodes, Owns E d t n)
    (hneu : neu = E.pack s.top ((d.pushes + 1) % E.tagCount))
    (hheads : Spells d.next s.top (s.map Chain.head))
    (hlinked : ∀ c' ∈ s, Spells d.chainNext (some c'.head) c'.nodes
      ∧ d.chainDepth c'.head = c'.length)
    (hnodes : s.nodes = c.nodes ++ d.chains.nodes) (hnodup : c.nodes.Nodup) :
    Does E alive t d (d.publish neu c s) where
  good := by
    refine ⟨hneu, hheads, hlinked, ?_, ?_, ?_⟩
    · show s.nodes.Nodup
      rw [hnodes, List.nodup_append]
      refine ⟨hnodup, hg.nodup, ?_⟩
      intro n hn n' hn'
      exact (hg.ne_of_owned (hown n hn).1 hn').symm
    · intro n hn
      change n ∈ s.nodes at hn
      rw [hnodes, List.mem_append] at hn
      show (if n ∈ c.nodes then none else d.owner n) = none ∧ _
      cases hn with
      | inl hn => exact ⟨if_pos hn, (hown n hn).2⟩
      | inr hn =>
        rw [(hg.inside n hn).1, ite_self]
        exact ⟨rfl, (hg.inside n hn).2⟩
    · intro n hn
      show (if n ∈ c.nodes then none else d.owner n).isSome ∨ n ∈ s.nodes
      rw [hnodes, List.mem_append]
      by_cases hc : n ∈ c.nodes
      · exact Or.inr (Or.inl hc)
      · rw [if_neg hc]
        exact (hg.kept n hn).imp_right Or.inr
  pushes := Nat.le_succ _
  fields := fun _ _ => ⟨rfl, rfl, rfl⟩
  owner := by
    intro n t' ht hn
    show (if n ∈ c.nodes then none else d.owner n) = some t'
    rw [if_neg]
    · exact hn
    · intro hc
      rw [(hown n hc).1] at hn
      exact ht (Option.some.inj hn).symm
  chains := by
    intro h
    exact absurd h (Nat.succ_ne_self _)

/-- A chain on top of the stack as it is. -/
theorem Does.pushesChain (ho : OwnsChain E d t c) (hcas : d.head = old.word)
    (hnext : d.next c.head = d.chains.top) : Does E alive t d
      (d.publish (pushedWord E c.head old) c (d.chains.pushChain c)) := by
  refine .publishes hg ho.owns (hg.pushedWord_eq _ hcas) ?_ ?_ rfl ho.nodup
  · refine ⟨rfl, ?_⟩
    rw [hnext]
    exact hg.heads
  · intro c' hc'
    cases hc' with
    | head => exact ⟨ho.spells, ho.depth⟩
    | tail _ hc' => exact hg.linked c' hc'

/-- A node as a new chain, when the top chain is long enough. -/
theorem Does.pushesSingleton (ho : Owns E d t n) (hcas : d.head = old.word)
    (hchain : d.chainNext n = none) (hdepth : d.chainDepth n = 1)
    (hnext : d.next n = d.chains.top)
    (hlong : ∀ c cs, d.chains = c :: cs → kmax ≤ c.length) :
    Does E alive t d
      (d.publish (pushedWord E n old) ⟨n, []⟩ (d.chains.push kmax n)) := by
  have hpush : d.chains.push kmax n = d.chains.pushChain ⟨n, []⟩ := by
    cases hc : d.chains with
    | nil => rfl
    | cons c cs => exact if_pos (hlong c cs hc)
  rw [hpush]
  have hchain' : OwnsChain E d t ⟨n, []⟩ := by
    refine ⟨?_, List.nodup_singleton n, ⟨rfl, hchain⟩, hdepth⟩
    intro n' hn'
    rw [List.mem_singleton.mp hn']
    exact ho
  exact Does.pushesChain hg hchain' hcas hnext

/-- A node on the top chain. -/
theorem Does.extends {cs : ChainStack Node} (ho : Owns E d t n)
    (hcas : d.head = old.word) (hc : d.chains = c :: cs)
    (hshort : c.length < kmax) (hchain : d.chainNext n = some c.head)
    (hdepth : d.chainDepth n = c.length + 1)
    (hnext : d.next n = ChainStack.top cs) : Does E alive t d
      (d.publish (pushedWord E n old) ⟨n, []⟩ (d.chains.push kmax n)) := by
  have hpush : d.chains.push kmax n = ⟨n, c.nodes⟩ :: cs := by
    rw [hc]
    exact if_neg (Nat.not_le.mpr hshort)
  have hlink := hg.linked c (by rw [hc]; exact List.mem_cons_self)
  rw [hpush]
  refine .publishes hg ?_ (hg.pushedWord_eq n hcas) ?_ ?_ ?_
    (List.nodup_singleton n)
  · intro n' hn'
    rw [List.mem_singleton.mp hn']
    exact ho
  · have hheads := hg.heads
    rw [hc] at hheads
    refine ⟨rfl, ?_⟩
    rw [hnext, ← hg.next_top hc]
    exact hheads.2
  · intro c' hc'
    cases hc' with
    | head =>
      refine ⟨⟨rfl, ?_⟩, hdepth⟩
      rw [hchain]
      exact hlink.1
    | tail _ hc' =>
      exact hg.linked c' (by rw [hc]; exact List.mem_cons_of_mem c hc')
  · rw [hc]
    rfl

/-- A pop takes the top chain off and owns it. -/
theorem Does.detaches {cs : ChainStack Node} (hcas : d.head = old.word)
    (hc : d.chains = c :: cs) : Does E alive t d
      (d.detach (E.pack (ChainStack.top cs) (E.unpackTag old.word)) t) := by
  have hpop : d.chains.pop.2 = cs := by
    rw [hc]
    rfl
  have htake : ChainStack.nodes (d.chains.take 1) = c.nodes := by
    rw [hc]
    exact List.append_nil _
  have hnodup := hg.nodup
  rw [hc, ChainStack.nodes_cons, List.nodup_append] at hnodup
  have hin : ∀ n ∈ ChainStack.nodes cs, n ∈ d.chains.nodes := by
    intro n hn
    rw [hc]
    exact List.mem_append_right _ hn
  have howner : ∀ n, (d.detach (E.pack (ChainStack.top cs)
      (E.unpackTag old.word)) t).owner n
        = if n ∈ c.nodes then some t else d.owner n := by
    intro n
    rw [← htake]
    rfl
  have hheads := hg.heads
  rw [hc] at hheads
  constructor
  case good =>
    constructor
    case head =>
      show E.pack _ _ = E.pack d.chains.pop.2.top (d.pushes % E.tagCount)
      rw [hpop, ← hcas, hg.unpackTag]
    case heads =>
      show Spells d.next d.chains.pop.2.top (d.chains.pop.2.map Chain.head)
      rw [hpop, ← hg.next_top hc]
      exact hheads.2
    case linked =>
      intro c' hc'
      change c' ∈ d.chains.pop.2 at hc'
      rw [hpop] at hc'
      exact hg.linked c' (by rw [hc]; exact List.mem_cons_of_mem c hc')
    case nodup =>
      show d.chains.pop.2.nodes.Nodup
      rw [hpop]
      exact hnodup.2.1
    case inside =>
      intro n hn
      change n ∈ d.chains.pop.2.nodes at hn
      rw [hpop] at hn
      rw [howner, if_neg]
      · exact hg.inside n (hin n hn)
      · intro hc'
        exact hnodup.2.2 n hc' n hn rfl
    case kept =>
      intro n hn
      show _ ∨ n ∈ d.chains.pop.2.nodes
      rw [howner, hpop]
      by_cases hc' : n ∈ c.nodes
      · rw [if_pos hc']
        exact Or.inl rfl
      · rw [if_neg hc']
        refine (hg.kept n hn).imp_right fun hmem => ?_
        rw [hc, ChainStack.nodes_cons, List.mem_append] at hmem
        exact hmem.resolve_left hc'
  case pushes => exact le_rfl
  case fields => exact fun _ _ => ⟨rfl, rfl, rfl⟩
  case owner =>
    intro n t' ht hn
    rw [howner, if_neg]
    · exact hn
    · intro hc'
      have hmem : n ∈ d.chains.nodes := by
        rw [hc]
        exact List.mem_append_left _ hc'
      rw [(hg.inside n hmem).1] at hn
      cases hn
  case chains =>
    intro _
    refine Or.inr ?_
    show d.chains.pop.2 = d.chains.tail
    rw [hc]
    rfl

end

-- ==== one call's step

/-- The step of frame `f` goes on and leaves the stack of chains alone,
or it answers what the stack of chains answers. -/
def Steps (E : HeadEncoding Node) (alive : Node → Prop) (t : Nat)
    (d : Shared Node) (since : Nat) (f : Frame Node) : Prop :=
  (∃ d' f', frameStep E t d f = (d', .inl f') ∧ Does E alive t d d'
      ∧ FrameOk E t d' since f' ∧ d'.chains = d.chains)
    ∨ ∃ d' ev, frameStep E t d f = (d', .inr ev) ∧ Does E alive t d d'
      ∧ Event.apply d.chains (some ev) = some d'.chains

/-- A step that only reads. -/
theorem Steps.reads {f : Frame Node} (f' : Frame Node) (hg : Good E alive d)
    (hstep : frameStep E t d f = (d, .inl f'))
    (hf : FrameOk E t d since f') : Steps E alive t d since f :=
  Or.inl ⟨d, f', hstep, .refl hg d.maxChainLength, hf, rfl⟩

variable (hg : Good E alive d) (hsince : since ≤ d.pushes)

include hg hsince

theorem steps_pushLoad (h : FrameOk E t d since (.pushLoad n)) :
    Steps E alive t d since (.pushLoad n) :=
  .reads _ hg rfl ⟨h, hg.loaded hsince, fun _ hp => hg.recent hp⟩

theorem steps_popLoad : Steps E alive t d since (.popLoad : Frame Node) := by
  cases hp : E.unpackPointer d.head with
  | none =>
    refine Or.inr ⟨d, .popped ⟨none, 0⟩, ?_, .refl hg d.maxChainLength, ?_⟩
    · simp only [frameStep, hp]
    · rw [hg.unpackPointer] at hp
      rw [ChainStack.top_eq_none hp]
      rfl
  | some p =>
    refine .reads (.popDepth ⟨d.head, d.pushes⟩ p) hg ?_
      ⟨hg.loaded hsince, hp, hg.recent hp⟩
    simp only [frameStep, hp]

omit hsince

theorem steps_pushMax (h : FrameOk E t d since (.pushMax n old)) :
    Steps E alive t d since (.pushMax n old) :=
  .reads _ hg rfl h

theorem steps_pushTop (h : FrameOk E t d since (.pushTop n kmax old)) :
    Steps E alive t d since (.pushTop n kmax old) := by
  obtain ⟨ho, hl, hr⟩ := h
  have hdepth : ∀ {p : Node} {c : Chain Node} {cs : ChainStack Node},
      d.chains = c :: cs → c.head = p → d.chainDepth p = c.length := by
    intro p c cs hc hh
    rw [← hh]
    exact (hg.linked c (by rw [hc]; exact List.mem_cons_self)).2
  cases hp : E.unpackPointer old.word with
  | none =>
    refine .reads (.pushChainNext n kmax old (.singleton none)) hg ?_
      ⟨ho, hl, hp⟩
    simp only [frameStep, hp]
  | some p =>
    by_cases hk : kmax ≤ d.chainDepth p
    · refine .reads (.pushChainNext n kmax old (.singleton (some p))) hg
        ?_ ⟨ho, hl, hp, (hr p hp).read ?_⟩
      · simp only [frameStep, hp, if_pos hk]
      · intro c cs hc hh _
        rw [← hdepth hc hh]
        exact hk
    · refine .reads (.pushChainNext n kmax old (.extend p (d.chainDepth p))) hg
        ?_ ⟨ho, hl, hp, (hr p hp).read ?_⟩
      · simp only [frameStep, hp, if_neg hk]
      · intro c cs hc hh _
        rw [hdepth hc hh] at hk ⊢
        exact ⟨rfl, Nat.not_le.mp hk⟩

theorem steps_pushChainNext
    (h : FrameOk E t d since (.pushChainNext n kmax old plan)) :
    Steps E alive t d since (.pushChainNext n kmax old plan) := by
  obtain ⟨ho, hl, hp⟩ := h
  have hd := Does.writesChainNext hg ho.1 plan.chainNext
  refine Or.inl ⟨_, _, rfl, hd, ⟨ho, hl.keep hd, hp.keep hg hd hl.past, ?_⟩,
    rfl⟩
  exact update_self ..

theorem steps_pushChainDepth
    (h : FrameOk E t d since (.pushChainDepth n kmax old plan)) :
    Steps E alive t d since (.pushChainDepth n kmax old plan) := by
  obtain ⟨ho, hl, hp, hc⟩ := h
  have hd := Does.writesChainDepth hg ho.1 plan.chainDepth
  have hp' := hp.keep hg hd hl.past
  cases plan with
  | singleton next =>
    exact Or.inl ⟨_, _, rfl, hd, ⟨ho, hl.keep hd, hp', hc,
      update_self .., rfl⟩, rfl⟩
  | extend p depth =>
    exact Or.inl ⟨_, _, rfl, hd, ⟨ho, hl.keep hd, hp', hc, update_self ..⟩, rfl⟩

theorem steps_pushReadNext
    (h : FrameOk E t d since (.pushReadNext n kmax old p depth)) :
    Steps E alive t d since (.pushReadNext n kmax old p depth) := by
  obtain ⟨ho, hl, hp, hc, hdep⟩ := h
  refine .reads _ hg rfl ⟨ho, hl, hp, hc, hdep, hp.2.read ?_⟩
  intro c cs hcs hh _
  rw [← hh]
  exact hg.next_top hcs

theorem steps_pushNext
    (h : FrameOk E t d since (.pushNext n kmax old plan next)) :
    Steps E alive t d since (.pushNext n kmax old plan next) := by
  obtain ⟨ho, hl, hp, hc, hdep, hn⟩ := h
  have hd := Does.writesNext hg ho.1 next
  exact Or.inl ⟨_, _, rfl, hd, ⟨ho, hl.keep hd, hp.keep hg hd hl.past, hc,
    hdep, hn.keep hg hd hl.past, update_self ..⟩, rfl⟩

theorem steps_chainNext (h : FrameOk E t d since (.chainNext c old)) :
    Steps E alive t d since (.chainNext c old) := by
  obtain ⟨ho, hl⟩ := h
  have hd := Does.writesNext hg (ho.owns c.head c.head_mem).1
    (E.unpackPointer old.word)
  exact Or.inl ⟨_, _, rfl, hd, ⟨⟨ho.owns, ho.nodup, ho.spells, ho.depth⟩,
    hl.keep hd, update_self ..⟩, rfl⟩

theorem steps_popDepth (h : FrameOk E t d since (.popDepth old p)) :
    Steps E alive t d since (.popDepth old p) := by
  obtain ⟨hl, hp, hr⟩ := h
  refine .reads _ hg rfl ⟨hl, hp, hr.read ?_⟩
  intro c cs hc hh _
  rw [← hh]
  exact (hg.linked c (by rw [hc]; exact List.mem_cons_self)).2

theorem steps_popNext (h : FrameOk E t d since (.popNext old p depth)) :
    Steps E alive t d since (.popNext old p depth) := by
  obtain ⟨hl, hp, hr⟩ := h
  refine .reads _ hg rfl ⟨hl, hp, hr.read ?_⟩
  intro c cs hc hh hdep
  refine ⟨hdep, ?_⟩
  rw [← hh]
  exact hg.next_top hc

include hsince

theorem steps_chainLoad (h : FrameOk E t d since (.chainLoad c)) :
    Steps E alive t d since (.chainLoad c) :=
  .reads _ hg rfl ⟨h, hg.loaded hsince⟩

/-- A chain's own push reads no field of the top, so that any match
will do. -/
theorem steps_chainCas (h : FrameOk E t d since (.chainCas c old)) :
    Steps E alive t d since (.chainCas c old) := by
  obtain ⟨ho, hl, hn⟩ := h
  by_cases hcas : d.head = old.word
  · refine Or.inr ⟨_, .pushedChain c, if_pos hcas, ?_, rfl⟩
    refine .pushesChain hg ho hcas ?_
    rw [hn, ← hcas, hg.unpackPointer]
  · exact .reads _ hg (if_neg hcas) ⟨ho, hg.loaded hsince⟩

variable (hfew : d.pushes < since + E.tagCount)

include hfew

/-- A compare-exchange that matches publishes the plan. -/
theorem steps_pushCas
    (h : FrameOk E t d since (.pushCas n kmax old plan next)) :
    Steps E alive t d since (.pushCas n kmax old plan next) := by
  obtain ⟨ho, hl, hp, hc, hdep, hn, hnx⟩ := h
  by_cases hcas : d.head = old.word
  · refine Or.inr ⟨_, .pushed n kmax, if_pos hcas, ?_, rfl⟩
    have hsame := hl.current hg hfew hcas
    have hptr := hg.unpackPointer
    rw [hcas] at hptr
    cases plan with
    | singleton next' =>
      subst hn
      refine .pushesSingleton hg ho hcas hc hdep ?_ ?_
      · rw [hnx, ← hptr]
        cases next with
        | none => exact hp.symm
        | some p => exact hp.1.symm
      · intro c cs hcs
        cases next with
        | none =>
          change E.unpackPointer old.word = none at hp
          rw [hptr, hcs] at hp
          cases hp
        | some p =>
          obtain ⟨c', cs', hcs', -, hk⟩ :=
            hp.2.current hg hsame hcas hp.1
          rw [hcs] at hcs'
          cases hcs'
          exact hk
    | extend p depth =>
      obtain ⟨c, cs, hcs, hh, hlen, hk⟩ :=
        hp.2.current hg hsame hcas hp.1
      obtain ⟨c', cs', hcs', -, htop⟩ :=
        Recent.current hn hg hsame hcas hp.1
      rw [hcs] at hcs'
      cases hcs'
      refine .extends hg ho hcas hcs hk ?_ ?_ ?_
      · rw [hc, hh]
        rfl
      · rw [hdep, ← hlen]
        rfl
      · rw [hnx, htop]
  · refine .reads _ hg (if_neg hcas) ⟨ho, hg.loaded hsince, ?_⟩
    exact fun _ hp => hg.recent hp

omit hsince in
theorem steps_popCas (h : FrameOk E t d since (.popCas old p depth next)) :
    Steps E alive t d since (.popCas old p depth next) := by
  obtain ⟨hl, hp, hr⟩ := h
  by_cases hcas : d.head = old.word
  · have hsame := hl.current hg hfew hcas
    obtain ⟨c, cs, hcs, hh, hdep, hnext⟩ := hr.current hg hsame hcas hp
    refine Or.inr ⟨_, .popped ⟨some p, depth⟩, if_pos hcas, ?_, ?_⟩
    · rw [hnext]
      exact .detaches hg hcas hcs
    · refine if_pos ?_
      rw [hcs, hdep, ← hh]
      rfl
  · exact .reads _ hg (if_neg hcas) trivial

/-- Every step of a call that has seen fewer pushes than tags. -/
theorem FrameOk.steps {f : Frame Node} (h : FrameOk E t d since f) :
    Steps E alive t d since f := by
  cases f with
  | pushLoad n => exact steps_pushLoad hg hsince h
  | pushMax n old => exact steps_pushMax hg h
  | pushTop n kmax old => exact steps_pushTop hg h
  | pushChainNext n kmax old plan => exact steps_pushChainNext hg h
  | pushChainDepth n kmax old plan => exact steps_pushChainDepth hg h
  | pushReadNext n kmax old p depth => exact steps_pushReadNext hg h
  | pushNext n kmax old plan next => exact steps_pushNext hg h
  | pushCas n kmax old plan next => exact steps_pushCas hg hsince hfew h
  | chainLoad c => exact steps_chainLoad hg hsince h
  | chainNext c old => exact steps_chainNext hg h
  | chainCas c old => exact steps_chainCas hg hsince h
  | popLoad => exact steps_popLoad hg hsince
  | popDepth old p => exact steps_popDepth hg h
  | popNext old p depth => exact steps_popNext hg h
  | popCas old p depth next => exact steps_popCas hg hfew h

omit hg hsince hfew

end CroCOS.Core.ChainedTreiberStack
