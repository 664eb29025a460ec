/-
What the memory says about the lists.

`Seg s left q right` walks the nodes `q`: the first one's `previous` is
`left`, every link leads to its neighbour, and the last one's `next` is
`right`. `Represents s lists` is the whole memory: each list is a
segment between two sentinels, no node is in two lists or twice in one,
and the links of a node in no list are null. It says nothing about the
locks.

The stores of every call are some plain stores and one meeting of two
segments (`Seg.join`): the last node of one and the first node of the
other are pointed at each other, or at the ends of the list. So the
lemmas at the end say, for each group of stores of the model, which list
it makes, with all other lists as they were.
-/
import CroCOS.AtomicLinkedList

namespace CroCOS.AtomicIntrusiveLinkedList

open Function

variable {s : Memory} {left right : Link} {a b q : List Nat}
variable {lists : Nat → List Nat} {l n : Nat}
variable {s' : Memory} {source x : Nat}

-- ==== segments

/-- The link to the first node, or to what comes after. -/
def firstOr (right : Link) : List Nat → Link
  | [] => right
  | x :: _ => .node x

/-- The link to the last node, or to what comes before. -/
def lastOr (left : Link) : List Nat → Link
  | [] => left
  | x :: rest => lastOr (.node x) rest

def Seg (s : Memory) : Link → List Nat → Link → Prop
  | _, [], _ => True
  | left, x :: rest, right =>
    s.previous x = left ∧ s.next x = firstOr right rest
      ∧ Seg s (.node x) rest right

@[simp] theorem lastOr_concat (left : Link) (a : List Nat) (p : Nat) :
    lastOr left (a ++ [p]) = .node p := by
  induction a generalizing left with
  | nil => rfl
  | cons x a ih => exact ih (.node x)

theorem firstOr_append (right : Link) (a b : List Nat) :
    firstOr right (a ++ b) = firstOr (firstOr right b) a := by
  cases a with
  | nil | cons x a => rfl

theorem firstOr_orNull (b : List Nat) :
    (firstOr .sentinel b).orNull = b.head? := by
  cases b with
  | nil | cons x b => rfl

theorem firstOr_orSentinel (b : List Nat) :
    (firstOr .sentinel b).orSentinel = firstOr .sentinel b := by
  cases b with
  | nil | cons x b => rfl

theorem lastOr_orNull (a : List Nat) :
    (lastOr .sentinel a).orNull = a.getLast? := by
  rcases List.eq_nil_or_concat' a with rfl | ⟨a, p, rfl⟩
  · rfl
  · simp [Link.orNull]

theorem lastOr_orSentinel (a : List Nat) :
    (lastOr .sentinel a).orSentinel = lastOr .sentinel a := by
  rcases List.eq_nil_or_concat' a with rfl | ⟨a, p, rfl⟩
  · rfl
  · simp [Link.orSentinel]

theorem seg_append : Seg s left (a ++ b) right
    ↔ Seg s left a (firstOr right b) ∧ Seg s (lastOr left a) b right := by
  induction a generalizing left with
  | nil => simp [Seg, lastOr]
  | cons x a ih =>
    simp only [List.cons_append, Seg, lastOr, ih, firstOr_append, and_assoc]

/-- A segment is about the links of its own nodes. -/
theorem Seg.congr (h : Seg s left q right)
    (hsame : ∀ x ∈ q, s'.previous x = s.previous x ∧ s'.next x = s.next x) :
    Seg s' left q right := by
  induction q generalizing left with
  | nil => trivial
  | cons x q ih =>
    obtain ⟨hp, hn⟩ := hsame x List.mem_cons_self
    obtain ⟨h1, h2, h3⟩ := h
    exact ⟨hp.trans h1, hn.trans h2,
      ih h3 fun y hy => hsame y (List.mem_cons_of_mem x hy)⟩

/-- The two neighbours of a node. -/
theorem Seg.neighbours (h : Seg s left (a ++ n :: b) right) :
    s.previous n = lastOr left a ∧ s.next n = firstOr right b := by
  have h := (seg_append.mp h).2
  exact ⟨h.1, h.2.1⟩

theorem Seg.linkEnd (h : Seg s left a right) (ha : a.Nodup) (l : Nat)
    (N : Link) :
    Seg (s.act (setLeft l (lastOr .sentinel a) N)) left a N.orSentinel := by
  rcases List.eq_nil_or_concat' a with rfl | ⟨a, p, rfl⟩
  · trivial
  · have hp : p ∉ a := fun hp =>
      (List.nodup_append.mp ha).2.2 p hp p List.mem_cons_self rfl
    rw [lastOr_concat, seg_append] at *
    obtain ⟨h1, h2, -, -⟩ := h
    refine ⟨h1.congr fun x hx => ⟨rfl, ?_⟩, h2, ?_, trivial⟩
    · exact update_of_ne (fun hxp : x = p => hp (hxp ▸ hx)) _ _
    · exact update_self ..

theorem Seg.linkStart (h : Seg s left b right) (hb : b.Nodup) (l : Nat)
    (P : Link) :
    Seg (s.act (setRight l P (firstOr .sentinel b))) P.orSentinel b
      right := by
  cases b with
  | nil => trivial
  | cons m b =>
    obtain ⟨-, h2, h3⟩ := h
    have hm := (List.nodup_cons.mp hb).1
    refine ⟨update_self .., h2, h3.congr fun x hx => ⟨?_, rfl⟩⟩
    exact update_of_ne (fun hxm : x = m => hm (hxm ▸ hx)) _ _

/-- A store to the left end keeps the links of all other nodes. -/
theorem setLeft_frame (l : Nat) (a : List Nat) (N : Link) (hx : x ∉ a) :
    (s.act (setLeft l (lastOr .sentinel a) N)).previous x = s.previous x
      ∧ (s.act (setLeft l (lastOr .sentinel a) N)).next x = s.next x := by
  rcases List.eq_nil_or_concat' a with rfl | ⟨a, p, rfl⟩
  · exact ⟨rfl, rfl⟩
  · rw [lastOr_concat]
    exact ⟨rfl, update_of_ne (fun hxp => hx (by simp [hxp])) _ _⟩

theorem setRight_frame (l : Nat) (P : Link) (b : List Nat) (hx : x ∉ b) :
    (s.act (setRight l P (firstOr .sentinel b))).previous x = s.previous x
      ∧ (s.act (setRight l P (firstOr .sentinel b))).next x = s.next x := by
  cases b with
  | nil => exact ⟨rfl, rfl⟩
  | cons m b =>
    exact ⟨update_of_ne (fun hxm => hx (by simp [hxm])) _ _, rfl⟩

def Memory.acts (s : Memory) (acts : List Act) : Memory :=
  acts.foldl Memory.act s

@[simp] theorem acts_cons (x : Act) (acts : List Act) :
    s.acts (x :: acts) = (s.act x).acts acts := rfl

theorem acts_append (xs ys : List Act) :
    s.acts (xs ++ ys) = (s.acts xs).acts ys :=
  List.foldl_append ..

/-- The stores that make two segments neighbours. -/
def meet (l : Nat) (a b : List Nat) : List Act :=
  [setLeft l (lastOr .sentinel a) (firstOr .sentinel b),
    setRight l (lastOr .sentinel a) (firstOr .sentinel b)]

/-- Two segments meet: what was after the first and before the second no
longer matters. -/
theorem Seg.join {left' right' : Link} (ha : Seg s left a right')
    (hb : Seg s left' b right) (hnd : (a ++ b).Nodup) (l : Nat) :
    Seg (s.acts (meet l a b)) left a (firstOr .sentinel b)
      ∧ Seg (s.acts (meet l a b)) (lastOr .sentinel a) b right := by
  obtain ⟨hnda, hndb, hdisj⟩ := List.nodup_append.mp hnd
  have ha' := ha.linkEnd hnda l (firstOr .sentinel b)
  rw [firstOr_orSentinel] at ha'
  have hb' := Seg.linkStart (s := s.act (setLeft l (lastOr .sentinel a)
    (firstOr .sentinel b))) (hb.congr fun x hx =>
      setLeft_frame l a _ fun hxa => hdisj x hxa x hx rfl) hndb l
        (lastOr .sentinel a)
  rw [lastOr_orSentinel] at hb'
  exact ⟨ha'.congr fun x hx => setRight_frame l _ b fun hxb =>
    hdisj x hx x hxb rfl, hb'⟩

theorem meet_frame (l : Nat) (hx : x ∉ a ++ b) :
    (s.acts (meet l a b)).previous x = s.previous x
      ∧ (s.acts (meet l a b)).next x = s.next x := by
  rw [List.mem_append, not_or] at hx
  have h1 := setLeft_frame (s := s) l a (firstOr .sentinel b) hx.1
  have h2 := setRight_frame (s := s.act (setLeft l (lastOr .sentinel a)
    (firstOr .sentinel b))) l (lastOr .sentinel a) b hx.2
  exact ⟨h2.1.trans h1.1, h2.2.trans h1.2⟩

theorem head_meet (hs : s.head l = (a ++ n :: b).head?) :
    (s.acts (meet l a b)).head
      = update s.head l (a ++ b).head? := by
  rcases List.eq_nil_or_concat' a with rfl | ⟨a, p, rfl⟩
  · rw [← firstOr_orNull]
    cases b with
    | nil | cons m b => rfl
  · have hsame : (a ++ [p] ++ b).head? = s.head l := by
      rw [hs]
      cases a with
      | nil | cons y a => rfl
    rw [hsame, update_eq_self]
    unfold meet
    rw [lastOr_concat]
    cases b with
    | nil | cons m b => rfl

theorem tail_meet (hs : s.tail l = (a ++ n :: b).getLast?) :
    (s.acts (meet l a b)).tail
      = update s.tail l (a ++ b).getLast? := by
  cases b with
  | nil =>
    rw [List.append_nil, ← lastOr_orNull]
    rcases List.eq_nil_or_concat' a with rfl | ⟨a, p, rfl⟩
    · rfl
    · unfold meet
      rw [lastOr_concat]
      rfl
  | cons m b =>
    have hsame : (a ++ m :: b).getLast? = s.tail l := by
      rw [hs]
      simp
    rw [hsame, update_eq_self]
    rcases List.eq_nil_or_concat' a with rfl | ⟨a, p, rfl⟩
    · rfl
    · unfold meet
      rw [lastOr_concat]
      rfl

-- ==== the memory

structure Represents (s : Memory) (lists : Nat → List Nat) : Prop where
  head : ∀ l, s.head l = (lists l).head?
  tail : ∀ l, s.tail l = (lists l).getLast?
  chain : ∀ l, Seg s .sentinel (lists l) .sentinel
  nodup : ∀ l, (lists l).Nodup
  apart : ∀ l l' n, n ∈ lists l → n ∈ lists l' → l = l'
  detached : ∀ n, (∀ l, n ∉ lists l) → s.previous n = .null ∧ s.next n = .null

theorem represents_create : Represents Memory.create fun _ => [] :=
  ⟨fun _ => rfl, fun _ => rfl, fun _ => trivial, fun _ => List.nodup_nil,
    fun _ _ _ h => absurd h List.not_mem_nil, fun _ _ => ⟨rfl, rfl⟩⟩

namespace Represents

section

variable (h : Represents s lists)
include h

/-- The lists do not depend on the locks. -/
theorem congr (hhead : s'.head = s.head) (htail : s'.tail = s.tail)
    (hprevious : s'.previous = s.previous) (hnext : s'.next = s.next) :
    Represents s' lists :=
  ⟨fun l => hhead ▸ h.head l, fun l => htail ▸ h.tail l,
    fun l => (h.chain l).congr fun x _ => ⟨by rw [hprevious], by rw [hnext]⟩,
    h.nodup, h.apart, fun n hn => by
      rw [hprevious, hnext]
      exact h.detached n hn⟩

/-- One list changes: its ends and its chain are as they should be, the
nodes of the other lists keep their links, and the nodes that left it
are detached. -/
theorem change (l : Nat) (hhead : s'.head = update s.head l q.head?)
    (htail : s'.tail = update s.tail l q.getLast?)
    (hchain : Seg s' .sentinel q .sentinel) (hnd : q.Nodup)
    (hnew : ∀ x ∈ q, ∀ l', x ∈ lists l' → l' = l)
    (hframe : ∀ x, x ∉ q → x ∉ lists l →
      s'.previous x = s.previous x ∧ s'.next x = s.next x)
    (hgone : ∀ x ∈ lists l, x ∉ q → s'.previous x = .null ∧ s'.next x = .null) :
    Represents s' (update lists l q) := by
  refine ⟨fun l' => ?_, fun l' => ?_, fun l' => ?_, fun l' => ?_,
    fun l₁ l₂ x h1 h2 => ?_, fun x hx => ?_⟩
  · rw [hhead]
    by_cases hl : l' = l
    · subst hl
      simp
    · simp [hl, h.head]
  · rw [htail]
    by_cases hl : l' = l
    · subst hl
      simp
    · simp [hl, h.tail]
  · by_cases hl : l' = l
    · subst hl
      simpa using hchain
    · rw [update_of_ne hl]
      refine (h.chain l').congr fun x hx => hframe x ?_ ?_
      · exact fun hq => hl (hnew x hq l' hx)
      · exact fun hq => hl (h.apart l' l x hx hq)
  · by_cases hl : l' = l
    · subst hl
      simpa using hnd
    · rw [update_of_ne hl]
      exact h.nodup l'
  · by_cases hl1 : l₁ = l
    · by_cases hl2 : l₂ = l
      · rw [hl1, hl2]
      · rw [hl1, update_self] at h1
        rw [update_of_ne hl2] at h2
        exact absurd (hnew x h1 l₂ h2) hl2
    · by_cases hl2 : l₂ = l
      · rw [hl2, update_self] at h2
        rw [update_of_ne hl1] at h1
        exact absurd (hnew x h2 l₁ h1) hl1
      · rw [update_of_ne hl1] at h1
        rw [update_of_ne hl2] at h2
        exact h.apart l₁ l₂ x h1 h2
  · have hq : x ∉ q := by
      have := hx l
      rwa [update_self] at this
    by_cases hin : x ∈ lists l
    · exact hgone x hin hq
    · obtain ⟨hp, hn⟩ := hframe x hq hin
      rw [hp, hn]
      refine h.detached x fun l' hl' => ?_
      by_cases hl : l' = l
      · exact hin (hl ▸ hl')
      · have := hx l'
        rw [update_of_ne hl] at this
        exact this hl'

-- ==== the stores of each call

/-- A node on an empty list. -/
theorem linkOnly (hl : lists l = []) (hn : ∀ l, n ∉ lists l) :
    Represents (s.acts (AtomicIntrusiveLinkedList.linkOnly l n))
      (update lists l [n]) := by
  refine h.change l rfl rfl ⟨?_, ?_, trivial⟩ (List.nodup_singleton n)
    (fun x hx l' hl' => ?_) (fun x hx _ => ?_) fun x hx => ?_
  · exact update_self ..
  · exact update_self ..
  · rw [List.mem_singleton.mp hx] at hl'
    exact absurd hl' (hn l')
  · rw [List.mem_singleton] at hx
    exact ⟨update_of_ne hx _ _, update_of_ne hx _ _⟩
  · rw [hl] at hx
    cases hx

/-- A node before the first one. -/
theorem linkFront {H : Nat} {rest : List Nat} (hl : lists l = H :: rest)
    (hn : ∀ l, n ∉ lists l) :
    Represents (s.acts (AtomicIntrusiveLinkedList.linkFront l n H))
      (update lists l (n :: H :: rest)) := by
  have hnl : n ∉ H :: rest := hl ▸ hn l
  have hnH : n ≠ H := fun hx => hnl (hx ▸ List.mem_cons_self)
  have hnd := h.nodup l
  rw [hl] at hnd
  have hHrest := (List.nodup_cons.mp hnd).1
  have hseg := h.chain l
  rw [hl] at hseg
  refine h.change l rfl ?_ ⟨?_, ?_, ?_, ?_, ?_⟩ (List.nodup_cons.mpr ⟨hnl, hnd⟩)
    (fun x hx l' hl' => ?_) (fun x hx _ => ?_) fun x hx hno => ?_
  · rw [List.getLast?_cons_cons, ← hl, ← h.tail, update_eq_self]
    rfl
  · show update (update s.previous n .sentinel) H (.node n) n
      = .sentinel
    rw [update_of_ne hnH, update_self]
  · exact update_self ..
  · exact update_self ..
  · show update s.next n (.node H) H = firstOr .sentinel rest
    rw [update_of_ne hnH.symm]
    exact hseg.2.1
  · refine hseg.2.2.congr fun x hx => ?_
    have hxn : x ≠ n := fun he => hnl (he ▸ List.mem_cons_of_mem H hx)
    have hxH : x ≠ H := fun he => hHrest (he ▸ hx)
    exact ⟨(update_of_ne hxH _ _).trans
      (update_of_ne hxn _ _), update_of_ne hxn _ _⟩
  · rcases List.mem_cons.mp hx with rfl | hx
    · exact absurd hl' (hn l')
    · exact h.apart l' l x hl' (hl ▸ hx)
  · simp only [List.mem_cons, not_or] at hx
    exact ⟨(update_of_ne hx.2.1 _ _).trans
      (update_of_ne hx.1 _ _), update_of_ne hx.1 _ _⟩
  · exact absurd (List.mem_cons_of_mem n (hl ▸ hx)) hno

/-- A node after the last one. -/
theorem linkBack {T : Nat} {front : List Nat} (hl : lists l = front ++ [T])
    (hn : ∀ l, n ∉ lists l) :
    Represents (s.acts (AtomicIntrusiveLinkedList.linkBack l n T))
      (update lists l (front ++ [T] ++ [n])) := by
  have hnl : n ∉ front ++ [T] := hl ▸ hn l
  have hnd : (front ++ [T] ++ [n]).Nodup := by
    rw [List.nodup_append]
    refine ⟨hl ▸ h.nodup l, List.nodup_singleton n, fun x hx y hy he => ?_⟩
    rw [List.mem_singleton.mp hy] at he
    exact hnl (he ▸ hx)
  have hseg := h.chain l
  rw [hl] at hseg
  -- the new node is a segment of its own once its `next` is written
  have hone : Seg (s.act (.setNext n .sentinel)) .null [n] .sentinel :=
    ⟨(h.detached n hn).1, update_self .., trivial⟩
  have hold : Seg (s.act (.setNext n .sentinel)) .sentinel (front ++ [T])
      .sentinel := hseg.congr fun x hx =>
    ⟨rfl, update_of_ne (fun he : x = n => hnl (he ▸ hx)) _ _⟩
  obtain ⟨hja, hjb⟩ := hold.join hone hnd l
  have hmeet : meet l (front ++ [T]) [n]
      = [.setNext T (.node n), .setPrevious n (.node T)] := by
    unfold meet
    rw [lastOr_concat]
    rfl
  rw [hmeet] at hja hjb
  refine h.change l ?_ ?_ (seg_append.mpr ⟨hja.congr fun _ _ => ⟨rfl, rfl⟩,
    hjb.congr fun _ _ => ⟨rfl, rfl⟩⟩) hnd
    (fun x hx l' hl' => ?_) (fun x hx _ => ?_) fun x hx hno => ?_
  · have hfirst : (front ++ [T] ++ [n]).head? = s.head l := by
      rw [h.head, hl]
      cases front with
      | nil | cons y front => rfl
    rw [hfirst, update_eq_self]
    rfl
  · rw [List.getLast?_concat]
    rfl
  · rcases List.mem_append.mp hx with hx | hx
    · exact h.apart l' l x hl' (hl ▸ hx)
    · rw [List.mem_singleton.mp hx] at hl'
      exact absurd hl' (hn l')
  · simp only [List.mem_append, List.mem_singleton, not_or] at hx
    exact ⟨update_of_ne hx.2 _ _, (update_of_ne hx.1.2 _ _).trans
        (update_of_ne hx.2 _ _)⟩
  · exact absurd (List.mem_append_left [n] (hl ▸ hx)) hno

/-- A node leaves the list it is in. -/
theorem unlink (hl : lists l = a ++ n :: b) :
    Represents (s.acts (meet l a b ++ detach n)) (update lists l (a ++ b)) := by
  have hnd := h.nodup l
  rw [hl] at hnd
  have hndab : (a ++ b).Nodup := hnd.sublist
    (List.Sublist.append (.refl a) (List.sublist_cons_self n b))
  have hna : n ∉ a ++ b := by
    intro hx
    have hp := List.perm_middle.nodup_iff.mp hnd
    exact (List.nodup_cons.mp hp).1 hx
  have hseg := h.chain l
  rw [hl, seg_append] at hseg
  obtain ⟨hja, hjb⟩ := hseg.1.join hseg.2.2.2 hndab l
  have hdetach : ∀ (s : Memory) x, x ≠ n →
      (s.acts (detach n)).previous x = s.previous x
        ∧ (s.acts (detach n)).next x = s.next x := fun s x hx =>
    ⟨update_of_ne hx _ _, update_of_ne hx _ _⟩
  have hne : ∀ x ∈ a ++ b, x ≠ n := fun x hx he => hna (he ▸ hx)
  refine h.change l ?_ ?_ ?_ hndab (fun x hx l' hl' => ?_)
    (fun x hx hxl => ?_) fun x hx hno => ?_
  · exact head_meet (by rw [h.head, hl])
  · exact tail_meet (by rw [h.tail, hl])
  · rw [seg_append]
    exact ⟨hja.congr fun x hx => hdetach _ x (hne x (List.mem_append_left b hx)),
      hjb.congr fun x hx => hdetach _ x (hne x (List.mem_append_right a hx))⟩
  · refine h.apart l' l x hl' ?_
    rw [hl]
    exact (List.Sublist.append (.refl a) (List.sublist_cons_self n b)).subset hx
  · have hxn : x ≠ n := fun he => hxl (by simp [hl, he])
    have h1 := hdetach (s.acts (meet l a b)) x hxn
    have h2 := meet_frame (s := s) l hx
    exact ⟨h1.1.trans h2.1, h1.2.trans h2.2⟩
  · have hxn : x = n := by
      rw [hl] at hx
      simp only [List.mem_append, List.mem_cons, not_or] at hx hno
      rcases hx with hx | hx | hx
      · exact absurd hx hno.1
      · exact hx
      · exact absurd hx hno.2
    subst hxn
    exact ⟨update_self .., update_self ..⟩

/-- One list takes all nodes of another. -/
theorem merge (hne : l ≠ source) (hq : q.Perm (lists l ++ lists source))
    (hhead : s'.head
      = update (update s.head source none) l q.head?)
    (htail : s'.tail
      = update (update s.tail source none) l q.getLast?)
    (hchain : Seg s' .sentinel q .sentinel) (hframe : ∀ x, x ∉ q →
      s'.previous x = s.previous x ∧ s'.next x = s.next x) :
    Represents s' (update (update lists source []) l q) := by
  have hmem : ∀ x, x ∈ q ↔ x ∈ lists l ∨ x ∈ lists source := fun x => by
    rw [hq.mem_iff, List.mem_append]
  have hlist : ∀ l', update (update lists source []) l q l'
      = if l' = l then q else if l' = source then [] else lists l' := by
    intro l'
    simp only [update_apply]
  have hother : ∀ l' x, l' ≠ l → l' ≠ source → x ∈ lists l' → x ∉ q := by
    intro l' x h1 h2 hx hxq
    rcases (hmem x).mp hxq with hin | hin
    · exact h1 (h.apart l' l x hx hin)
    · exact h2 (h.apart l' source x hx hin)
  have hnd : q.Nodup := by
    rw [hq.nodup_iff, List.nodup_append]
    refine ⟨h.nodup l, h.nodup source, fun x hx y hy he => hne ?_⟩
    exact h.apart l source x hx (he ▸ hy)
  refine ⟨fun l' => ?_, fun l' => ?_, fun l' => ?_, fun l' => ?_,
    fun l₁ l₂ x h1 h2 => ?_, fun x hx => ?_⟩
  · rw [hhead]
    simp only [update_apply]
    split
    · rfl
    · split
      · rfl
      · exact h.head l'
  · rw [htail]
    simp only [update_apply]
    split
    · rfl
    · split
      · rfl
      · exact h.tail l'
  · rw [hlist]
    split
    · exact hchain
    · split
      · trivial
      · rename_i h1 h2
        exact (h.chain l').congr fun x hx => hframe x (hother l' x h1 h2 hx)
  · rw [hlist]
    split
    · exact hnd
    · split
      · exact List.nodup_nil
      · exact h.nodup l'
  · rw [hlist] at h1 h2
    split at h1
    · rename_i hl1
      split at h2
      · rename_i hl2
        rw [hl1, hl2]
      · split at h2
        · cases h2
        · rename_i hl2 hs2
          exact absurd h1 (hother l₂ x hl2 hs2 h2)
    · split at h1
      · cases h1
      · rename_i hl1 hs1
        split at h2
        · exact absurd h2 (hother l₁ x hl1 hs1 h1)
        · split at h2
          · cases h2
          · exact h.apart l₁ l₂ x h1 h2
  · have hxq : x ∉ q := by
      have := hx l
      rwa [update_self] at this
    obtain ⟨hp, hn⟩ := hframe x hxq
    rw [hp, hn]
    refine h.detached x fun l' hl' => ?_
    by_cases hl : l' = l
    · exact hxq ((hmem x).mpr (.inl (hl ▸ hl')))
    · by_cases hs : l' = source
      · exact hxq ((hmem x).mpr (.inr (hs ▸ hl')))
      · have := hx l'
        rw [hlist, if_neg hl, if_neg hs] at this
        exact this hl'

end

end Represents

theorem firstOr_of_head? (hq : q.head? = some x) :
    firstOr right q = .node x := by
  cases q with
  | nil => cases hq
  | cons y q =>
    cases hq
    rfl

theorem lastOr_of_getLast? (hq : q.getLast? = some x) :
    lastOr left q = .node x := by
  rcases List.eq_nil_or_concat' q with rfl | ⟨q, y, rfl⟩
  · cases hq
  · rw [List.getLast?_concat] at hq
    cases hq
    exact lastOr_concat ..

/-- The list that a splice leaves. -/
def spliced (front : Bool) (own source : List Nat) : List Nat :=
  if front then source ++ own else own ++ source

/-- The stores of a splice, with the source emptied first. -/
theorem Represents.splice {srcHead srcTail : Nat} {front : Bool}
    (h : Represents s lists) (hne : l ≠ source)
    (hhead : (lists source).head? = some srcHead)
    (htail : (lists source).getLast? = some srcTail)
    (hx : (if front then (lists l).head? else (lists l).getLast?) = some x) :
    Represents ((s.acts [.setHead source none, .setTail source none]).acts
        (spliceLinks front l x srcHead srcTail))
      (update (update lists source []) l
        (spliced front (lists l) (lists source))) := by
  have hown : (update s.head source none) l = (lists l).head?
      ∧ (update s.tail source none) l = (lists l).getLast? := by
    rw [update_of_ne hne, update_of_ne hne, h.head, h.tail]
    exact ⟨rfl, rfl⟩
  have hdisj : (lists l ++ lists source).Nodup := by
    rw [List.nodup_append]
    refine ⟨h.nodup l, h.nodup source, fun x hx y hy he => hne ?_⟩
    exact h.apart l source x hx (he ▸ hy)
  cases front with
  | true =>
    have hperm : (lists source ++ lists l).Perm (lists l ++ lists source) :=
      List.perm_append_comm
    have hmeet : meet l (lists source) (lists l)
        = [.setNext srcTail (.node x), .setPrevious x (.node srcTail)] := by
      unfold meet
      rw [lastOr_of_getLast? htail, firstOr_of_head? hx]
      rfl
    have hjoin := (h.chain source).join (h.chain l)
      (hperm.nodup_iff.mpr hdisj) l
    have hframe := fun y (hy : y ∉ lists source ++ lists l) =>
      meet_frame (s := s) l hy
    rw [hmeet] at hjoin hframe
    refine h.merge hne hperm ?_ ?_ (seg_append.mpr
      ⟨hjoin.1.congr fun _ _ => ⟨rfl, rfl⟩,
        hjoin.2.congr fun _ _ => ⟨rfl, rfl⟩⟩) hframe
    · have hfirst : (spliced true (lists l) (lists source)).head?
          = some srcHead := by
        rw [spliced, if_pos rfl, List.head?_append, hhead]
        rfl
      rw [hfirst]
      rfl
    · have hlast : (spliced true (lists l) (lists source)).getLast?
          = (update s.tail source none) l := by
        rw [hown.2, spliced, if_pos rfl, List.getLast?_append]
        cases hq : lists l with
        | nil =>
          rw [hq] at hx
          cases hx
        | cons y q =>
          rfl
      rw [hlast, update_eq_self]
      rfl
  | false =>
    have hmeet : meet l (lists l) (lists source)
        = [.setNext x (.node srcHead), .setPrevious srcHead (.node x)] := by
      unfold meet
      rw [lastOr_of_getLast? hx, firstOr_of_head? hhead]
      rfl
    have hjoin := (h.chain l).join (h.chain source) hdisj l
    have hframe := fun y (hy : y ∉ lists l ++ lists source) =>
      meet_frame (s := s) l hy
    rw [hmeet] at hjoin hframe
    refine h.merge hne (.refl _) ?_ ?_ (seg_append.mpr
      ⟨hjoin.1.congr fun _ _ => ⟨rfl, rfl⟩,
        hjoin.2.congr fun _ _ => ⟨rfl, rfl⟩⟩) hframe
    · have hfirst : (spliced false (lists l) (lists source)).head?
          = (update s.head source none) l := by
        rw [hown.1, spliced]
        cases hq : lists l with
        | nil =>
          rw [hq] at hx
          cases hx
        | cons y q => rfl
      rw [hfirst, update_eq_self]
      rfl
    · have hlast : (spliced false (lists l) (lists source)).getLast?
          = some srcTail := by
        rw [spliced, if_neg Bool.false_ne_true, List.getLast?_append, htail]
        rfl
      rw [hlast]
      rfl

/-- A splice into an empty list. -/
theorem Represents.spliceEmpty (front : Bool) (h : Represents s lists)
    (hne : l ≠ source) (hl : lists l = []) :
    Represents ((s.acts [.setHead source none, .setTail source none]).acts
        [.setHead l (lists source).head?, .setTail l (lists source).getLast?])
      (update (update lists source []) l
        (spliced front (lists l) (lists source))) := by
  have hq : spliced front (lists l) (lists source) = lists source := by
    unfold spliced
    rw [hl, List.append_nil, List.nil_append, ite_self]
  rw [hq]
  refine h.merge hne (by rw [hl]; rfl) rfl rfl
    ((h.chain source).congr fun _ _ => ⟨rfl, rfl⟩) fun _ _ => ⟨rfl, rfl⟩

end CroCOS.AtomicIntrusiveLinkedList
