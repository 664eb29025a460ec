/-
One call at a time, on any number of lists.

`Call.apply` is what a call does to the sequences. A call run to its end
by one thread takes its locks and gives them back in the opposite order,
so the locks it holds are a stack (`hold`); `Goes` is a number of steps,
put together from the lemmas for a load, a lock and a row of stores.

`remove` does not know which list a node is in. It tells by the list's
ends only, so it refuses a node that is the first or the last one of
another list and takes one out of the middle of it.
-/
import CroCOS.Proofs.AtomicLinkedList.Represents

namespace CroCOS.AtomicIntrusiveLinkedList

open Lib Function

variable {s : Memory} {lists : Nat → List Nat} {l n t : Nat}
variable {acts : List Act} {c : Call} {k : Lock} {ks : List Lock}
variable {source : Nat}

-- ==== what a call does

/-- The lists as sequences. -/
def Call.apply (lists : Nat → List Nat) : Call → (Nat → List Nat) × Answer
  | .pushFront l n => (update lists l (n :: lists l), .nothing)
  | .pushBack l n => (update lists l (lists l ++ [n]), .nothing)
  | .remove l n =>
    if n ∈ lists l then
      (update lists l ((lists l).erase n), .removed true)
    else (lists, .removed false)
  | .popFront l =>
    (update lists l (lists l).tail, .popped (lists l).head?)
  | .popBack l =>
    (update lists l (lists l).dropLast, .popped (lists l).getLast?)
  | .spliceFront l source =>
    if l = source then (lists, .nothing)
    else (update (update lists source []) l (lists source ++ lists l), .nothing)
  | .spliceBack l source =>
    if l = source then (lists, .nothing)
    else (update (update lists source []) l (lists l ++ lists source), .nothing)

-- ==== the steps

/-- The memory with other locks held. -/
def Memory.holding (s : Memory) (holder : Lock → Option Nat) : Memory :=
  { s with holder := holder }

theorem previous_holding (holder : Lock → Option Nat) (n : Nat) :
    (s.holding holder).previous n = s.previous n := rfl

theorem next_holding (holder : Lock → Option Nat) (n : Nat) :
    (s.holding holder).next n = s.next n := rfl

/-- Thread `t` holds the locks `ks`, and nobody else holds any. -/
def hold (t : Nat) (ks : List Lock) : Lock → Option Nat :=
  fun k => if k ∈ ks then some t else none

theorem hold_push (t : Nat) (k : Lock) (ks : List Lock) :
    update (hold t ks) k (some t) = hold t (k :: ks) := by
  funext k'
  by_cases hk : k' = k
  · subst hk
    simp [hold]
  · simp [hold, hk]

theorem hold_pop (hk : k ∉ ks) :
    update (hold t (k :: ks)) k none = hold t ks := by
  funext k'
  by_cases hk' : k' = k
  · subst hk'
    simp [hold, hk]
  · simp [hold, hk']

/-- Some steps of thread `t`, alone. -/
def Goes (t count : Nat) (m m' : Memory × Frame) : Prop :=
  steps t count m = .ok m'

theorem Goes.trans {i j : Nat} {m₁ m₂ m₃ : Memory × Frame}
    (h : Goes t i m₁ m₂) (h' : Goes t j m₂ m₃) : Goes t (i + j) m₁ m₃ := by
  induction i generalizing m₁ with
  | zero =>
    cases h
    rw [Nat.zero_add]
    exact h'
  | succ i ih =>
    rw [Nat.succ_add]
    obtain ⟨m, hm, hrest⟩ := bind_inv h
    show (frameStep t m₁.1 m₁.2 >>= steps t (i + j)) = _
    rw [hm]
    exact ih hrest

theorem goes_one {f f' : Frame} {s' : Memory}
    (h : frameStep t s f = .ok (s', f')) : Goes t 1 (s, f) (s', f') := by
  show (frameStep t s f >>= steps t 0) = _
  rw [h]
  rfl

theorem goes_todo (acts : List Act) (f : Frame) (s : Memory) :
    Goes t (acts.length + 1) (s, .todo acts f) (s.acts acts, f) := by
  induction acts generalizing s with
  | nil => exact goes_one rfl
  | cons a acts ih =>
    rw [List.length_cons, Nat.add_comm (acts.length + 1)]
    exact (goes_one rfl).trans (ih (s.act a))

theorem goes_done (count : Nat) (r : Answer) :
    Goes t count (s, .done r) (s, .done r) := by
  induction count with
  | zero => rfl
  | succ count ih =>
    rw [Nat.add_comm]
    exact (goes_one rfl).trans ih

def Act.isStore : Act → Bool
  | .unlock _ => false
  | _ => true

theorem acts_holding (h : ∀ a ∈ acts, a.isStore = true)
    (holder : Lock → Option Nat) :
    (s.holding holder).acts acts = (s.acts acts).holding holder := by
  induction acts generalizing s with
  | nil => rfl
  | cons a acts ih =>
    have ha : (s.holding holder).act a = (s.act a).holding holder := by
      cases a with
      | unlock k => cases h _ List.mem_cons_self
      | setHead | setTail | setPrevious | setNext => rfl
    rw [acts_cons, ha]
    exact ih fun b hb => h b (List.mem_cons_of_mem a hb)

/-- The locks of a call are given back in the opposite order. -/
theorem unlock_all (hnd : ks.Nodup) :
    (s.holding (hold t ks)).acts (ks.map .unlock) = s.holding (hold t []) := by
  induction ks with
  | nil => rfl
  | cons k ks ih =>
    obtain ⟨hk, hnd⟩ := List.nodup_cons.mp hnd
    rw [List.map_cons, ← ih hnd, ← hold_pop hk]
    rfl

-- ==== to the end

/-- With the locks `held`, that many steps take the thread to the answer
`r`, and no lock is held then. -/
def Leads (count : Nat) (s : Memory) (held : List Lock) (f : Frame)
    (s' : Memory) (r : Answer) : Prop :=
  Goes 0 count (s.holding (hold 0 held), f) (s'.holding (hold 0 []), .done r)

namespace Leads

variable {i : Nat} {s₁ s' : Memory} {held held' : List Lock}
variable {f f' : Frame} {r : Answer}

theorem step (hf : frameStep 0 (s.holding (hold 0 held)) f
      = .ok (s₁.holding (hold 0 held'), f'))
    (h : Leads i s₁ held' f' s' r) : Leads (i + 1) s held f s' r := by
  rw [Nat.add_comm]
  exact (goes_one hf).trans h

/-- A load, and the branch taken on it. -/
theorem read (hf : frameStep 0 (s.holding (hold 0 held)) f
      = .ok (s.holding (hold 0 held), f'))
    (h : Leads i s held f' s' r) : Leads (i + 1) s held f s' r :=
  h.step hf

/-- A lock that the thread does not hold yet is free. -/
theorem tryLock_free (hk : k ∉ held) (f f' : Frame) :
    tryLock (s.holding (hold 0 held)) 0 k f f'
      = (s.holding (hold 0 (k :: held)), f) := by
  have hfree : (s.holding (hold 0 held)).holder k = none := by
    simp [Memory.holding, hold, hk]
  rw [tryLock, hfree]
  rw [← hold_push]
  rfl

theorem lock (hk : k ∉ held) (h : Leads i s (k :: held) f s' r) :
    Leads (i + 1) s held (.lock k f) s' r :=
  h.step (congrArg Except.ok (tryLock_free hk _ _))

theorem lockAll : ∀ {held : List Lock}, (ks.reverse ++ held).Nodup →
      Leads i s (ks.reverse ++ held) f s' r →
      Leads (i + ks.length) s held (.lockAll ks f) s' r := by
  induction ks with
  | nil => exact fun _ h => h
  | cons k ks ih =>
    intro held hnd h
    rw [List.reverse_cons, List.append_assoc] at *
    have hk : k ∉ held := (List.nodup_cons.mp (List.nodup_append.mp hnd).2.1).1
    exact (ih hnd h).lock hk

theorem done (i : Nat) : Leads i s [] (.done r) s r :=
  goes_done i r

/-- Stores on the way. -/
theorem stores (hs : ∀ a ∈ acts, a.isStore = true)
    (h : Leads i (s.acts acts) held f s' r) :
    Leads (acts.length + 1 + i) s held (.todo acts f) s' r := by
  have hgo := goes_todo (t := 0) acts f (s.holding (hold 0 held))
  rw [acts_holding hs] at hgo
  exact hgo.trans h

/-- The stores of a call, and the locks given back. The stores may come
in another order. -/
theorem finish {stores : List Act}
    (hacts : ∀ m : Memory, m.acts acts = m.acts (stores ++ held.map .unlock))
    (hs : ∀ a ∈ stores, a.isStore = true) (hnd : held.Nodup)
    (hcount : acts.length + 1 ≤ i) :
    Leads i s held (.todo acts (.done r)) (s.acts stores) r := by
  have h := goes_todo (t := 0) acts (.done r) (s.holding (hold 0 held))
  rw [hacts, acts_append, acts_holding hs, unlock_all hnd] at h
  have h' := h.trans (goes_done (i - (acts.length + 1)) r)
  rwa [Nat.add_sub_cancel' hcount] at h'

/-- A call that gives up. -/
theorem giveUp (hnd : held.Nodup) (hcount : held.length + 1 ≤ i) :
    Leads i s held (.todo (held.map .unlock) (.done r)) s r := by
  have h : ∀ m : Memory, m.acts (held.map .unlock)
      = m.acts ([] ++ held.map .unlock) := fun _ => rfl
  exact finish h (by simp) hnd (by simpa)

end Leads

/-- A call that comes to its end in time, with all locks free and the
memory as the lists say. -/
def Ends (s : Memory) (c : Call) (lists : Nat → List Nat) (r : Answer) : Prop :=
  ∃ s', callAlone (s.holding (hold 0 [])) c = .ok (s'.holding (hold 0 []), r)
    ∧ Represents s' lists

theorem Leads.ends {i : Nat} {s' : Memory} {r : Answer}
    (h : Leads i s [] c.enter s' r) (hc : i ≤ stepBound)
    (hs : Represents s' lists) : Ends s c lists r := by
  have hall : Goes 0 stepBound (s.holding (hold 0 []), c.enter)
      (s'.holding (hold 0 []), .done r) := by
    have := h.trans (goes_done (stepBound - i) r)
    rwa [Nat.add_sub_cancel' hc] at this
  refine ⟨s', ?_, hs⟩
  unfold callAlone
  rw [hall]
  rfl

-- ==== pushes

section calls

variable (h : Represents s lists)
include h

theorem read_head (ks : List Lock) (l : Nat) :
    (s.holding (hold 0 ks)).head l = (lists l).head? := h.head l

theorem read_tail (ks : List Lock) (l : Nat) :
    (s.holding (hold 0 ks)).tail l = (lists l).getLast? := h.tail l

theorem pushFront_alone (hn : ∀ l, n ∉ lists l) :
    Ends s (.pushFront l n) (update lists l (n :: lists l)) .nothing := by
  cases hl : lists l with
  | nil =>
    refine Leads.ends (.lock (i := 20) List.not_mem_nil ?_) (by decide)
      (h.linkOnly hl hn)
    apply Leads.read
    · rw [frameStep, read_head h, hl]
      rfl
    exact .lock (by simp) (.finish (fun _ => rfl)
      (by simp [linkOnly, Act.isStore]) (by simp) (by simp [linkOnly]))
  | cons H rest =>
    refine Leads.ends (.lock (i := 20) List.not_mem_nil ?_) (by decide)
      (h.linkFront hl hn)
    apply Leads.read
    · rw [frameStep, read_head h, hl]
      rfl
    exact .lock (by simp) (.finish (fun _ => rfl)
      (by simp [linkFront, Act.isStore]) (by simp) (by simp [linkFront]))

theorem pushBack_alone (hn : ∀ l, n ∉ lists l) :
    Ends s (.pushBack l n) (update lists l (lists l ++ [n])) .nothing := by
  rcases List.eq_nil_or_concat' (lists l) with hl | ⟨front, T, hl⟩
  · have htail : (lists l).getLast? = none := by rw [hl]; rfl
    rw [hl]
    refine Leads.ends (.lock (i := 20) List.not_mem_nil ?_) (by decide)
      (h.linkOnly hl hn)
    apply Leads.read
    · rw [frameStep, read_tail h, htail]
    refine .lock (by simp) (.lock (by simp) ?_)
    apply Leads.read
    · rw [frameStep, read_tail h, htail, if_neg (by simp)]
    exact .finish (fun _ => rfl) (by simp [linkOnly, Act.isStore]) (by simp)
      (by simp [linkOnly])
  · have htail : (lists l).getLast? = some T := by
      rw [hl, List.getLast?_concat]
    rw [hl]
    refine Leads.ends (.lock (i := 20) List.not_mem_nil ?_) (by decide)
      (h.linkBack hl hn)
    apply Leads.read
    · rw [frameStep, read_tail h, htail]
    refine .lock (by simp) (.lock (by simp) ?_)
    apply Leads.read
    · rw [frameStep, read_tail h, htail, if_neg (by simp)]
    exact .finish (fun _ => rfl) (by simp [linkBack, Act.isStore]) (by simp)
      (by simp [linkBack])

-- ==== pops

theorem popFront_alone : Ends s (.popFront l) (update lists l (lists l).tail)
      (.popped (lists l).head?) := by
  cases hl : lists l with
  | nil =>
    have hsame : Represents s (update lists l [].tail) := by
      rw [List.tail_nil, ← hl, update_eq_self]
      exact h
    refine Leads.ends (i := 20) ?_ (by decide) hsame
    apply Leads.read
    · rw [Call.enter, frameStep, read_head h, hl]
      rfl
    exact .done _
  | cons H rest =>
    have hhead : (lists l).head? = some H := by rw [hl]; rfl
    have hseg := h.chain l
    rw [hl] at hseg
    refine Leads.ends (i := 20) ?_ (by decide)
      (h.unlink (a := []) (b := rest) hl)
    apply Leads.read
    · rw [Call.enter, frameStep, read_head h, hhead, if_neg (by simp)]
    refine .lock (by simp) ?_
    apply Leads.read
    · rw [frameStep, read_head h, hhead]
    refine .lock (by simp) ?_
    cases rest with
    | nil =>
      apply Leads.read
      · rw [frameStep, next_holding, hseg.2.1]
        rfl
      exact .lock (by simp) (.finish (fun _ => rfl)
        (by simp [meet, setLeft, setRight, lastOr, firstOr, detach,
          Act.isStore]) (by simp) (by simp [detach]))
    | cons N rest =>
      apply Leads.read
      · rw [frameStep, next_holding, hseg.2.1]
        rfl
      exact .finish (fun _ => rfl)
        (by simp [meet, setLeft, setRight, lastOr, firstOr, detach,
          Act.isStore]) (by simp) (by simp [detach])

omit h in
theorem meet_isStore (l : Nat) (a b : List Nat) (n : Nat) :
    ∀ x ∈ meet l a b ++ detach n, x.isStore = true := by
  have hleft (P N : Link) : (setLeft l P N).isStore = true := by
    cases P with
    | null | sentinel | node => rfl
  have hright (P N : Link) : (setRight l P N).isStore = true := by
    cases N with
    | null | sentinel | node => rfl
  have hdetach : ∀ x ∈ detach n, x.isStore = true := by
    simp [detach, Act.isStore]
  intro x hx
  rcases List.mem_append.mp hx with hx | hx
  · simp only [meet, List.mem_cons, List.not_mem_nil, or_false] at hx
    rcases hx with rfl | rfl
    · exact hleft _ _
    · exact hright _ _
  · exact hdetach x hx

omit h in
/-- The lock left of a node is `headLock`, or that of a node before it. -/
theorem leftLock_lastOr (l : Nat) (a : List Nat) :
    leftLock l (lastOr .sentinel a) = .head l
      ∨ ∃ p ∈ a, leftLock l (lastOr .sentinel a) = .node p := by
  rcases List.eq_nil_or_concat' a with rfl | ⟨a, p, rfl⟩
  · exact .inl rfl
  · exact .inr ⟨p, by simp, by rw [lastOr_concat]; rfl⟩

omit h in
theorem leftLock_ne (l : Nat) (a : List Nat) (hn : n ∉ a) :
    Lock.node n ≠ leftLock l (lastOr .sentinel a)
      ∧ Lock.tail l ≠ leftLock l (lastOr .sentinel a)
      ∧ leftLock l (lastOr .sentinel a) ≠ .tailInsert l := by
  rcases leftLock_lastOr l a with hk | ⟨p, hp, hk⟩
  · simp [hk]
  · have hnp : n ≠ p := fun he => hn (he ▸ hp)
    simp [hk, hnp]

/-- With the lock left of it held, the last node is taken off. -/
theorem popBack_last {front : List Nat} {T : Nat}
    (hl : lists l = front ++ [T]) {i : Nat} :
    Leads (i + 14) s [leftLock l (lastOr .sentinel front), .tailInsert l]
      (.popBackTryTail l T (lastOr .sentinel front))
      (s.acts (meet l front [] ++ detach T)) (.popped (some T)) := by
  have hnd := h.nodup l
  have hseg := h.chain l
  rw [hl] at hnd hseg
  have htail : (lists l).getLast? = some T := by
    rw [hl, List.getLast?_concat]
  have hprev : s.previous T = lastOr .sentinel front := hseg.neighbours.1
  have hT : T ∉ front := fun hx =>
    (List.nodup_append.mp hnd).2.2 T hx T (by simp) rfl
  obtain ⟨hnode, htl, hinsert⟩ := leftLock_ne l front hT
  have hfree : Lock.node T ∉ [leftLock l (lastOr .sentinel front),
      .tailInsert l] := by simpa using hnode
  have hends : Lock.tail l ∉ [Lock.node T,
      leftLock l (lastOr .sentinel front), .tailInsert l] := by
    simpa using htl
  refine .step (congrArg Except.ok (Leads.tryLock_free hfree _ _)) ?_
  refine .lock hends ?_
  apply Leads.read
  · rw [frameStep, read_tail h, htail, if_neg (by simp)]
  apply Leads.read
  · rw [frameStep, previous_holding, hprev, if_neg (by simp)]
  refine .finish (fun _ => rfl) (meet_isStore l front [] T) ?_
    (by simp [detach])
  exact List.nodup_cons.mpr ⟨hends, List.nodup_cons.mpr ⟨hfree, by
    simpa using hinsert⟩⟩

theorem popBack_alone : Ends s (.popBack l) (update lists l (lists l).dropLast)
      (.popped (lists l).getLast?) := by
  rcases List.eq_nil_or_concat' (lists l) with hl | ⟨front, T, hl⟩
  · rw [hl]
    have hsame : Represents s (update lists l [].dropLast) := by
      rw [List.dropLast_nil, ← hl, update_eq_self]
      exact h
    refine Leads.ends (i := 20) ?_ (by decide) hsame
    apply Leads.read
    · rw [Call.enter, frameStep, read_tail h, hl]
      rfl
    exact .done _
  · have htail : (lists l).getLast? = some T := by
      rw [hl, List.getLast?_concat]
    have hseg := h.chain l
    rw [hl] at hseg
    have hprev : s.previous T = lastOr .sentinel front := hseg.neighbours.1
    have hgone := h.unlink (a := front) (b := []) hl
    rw [List.append_nil] at hgone
    rw [hl, List.dropLast_concat, List.getLast?_concat]
    refine Leads.ends (i := 20) ?_ (by decide) hgone
    have hlast := popBack_last h hl (i := 1)
    apply Leads.read
    · rw [Call.enter, frameStep, read_tail h, htail, if_neg (by simp)]
    refine .lock (by simp) ?_
    apply Leads.read
    · rw [frameStep, read_tail h, htail]
    rcases List.eq_nil_or_concat' front with rfl | ⟨front, p, rfl⟩
    · apply Leads.read
      · rw [frameStep, previous_holding, hprev]
        rfl
      exact .lock (by simp) hlast
    · rw [lastOr_concat] at hprev hlast
      apply Leads.read
      · rw [frameStep, previous_holding, hprev]
      exact .step (congrArg Except.ok (Leads.tryLock_free (by simp) _ _)) hlast

-- ==== remove

/-- With the lock left of it and its own held, a node is taken out. -/
theorem remove_found {a b : List Nat} (hl : lists l = a ++ n :: b) {i : Nat} :
    Leads (i + 11) s [.node n, leftLock l (lastOr .sentinel a)]
      (.removeNext l n (lastOr .sentinel a))
      (s.acts (meet l a b ++ detach n)) (.removed true) := by
  have hnd := h.nodup l
  have hseg := h.chain l
  rw [hl] at hnd hseg
  obtain ⟨-, hnb, hdisj⟩ := List.nodup_append.mp hnd
  have hnext : s.next n = firstOr .sentinel b := hseg.neighbours.2
  obtain ⟨hleft, hright, -⟩ := leftLock_ne l a fun hx =>
    hdisj n hx n (by simp) rfl
  cases b with
  | nil =>
    have htail : (lists l).getLast? = some n := by
      rw [hl, List.getLast?_concat]
    apply Leads.read
    · rw [frameStep, next_holding, hnext]
      rfl
    refine .lock (by simpa using hright) ?_
    apply Leads.read
    · rw [frameStep, read_tail h, htail, if_neg (by simp)]
    exact .finish (fun _ => rfl) (meet_isStore l a [] n)
      (by simpa using ⟨hright, hleft⟩) (by simp [unlink, detach])
  | cons N b =>
    have hN := (leftLock_ne l a fun hx => hdisj N hx N (by simp) rfl).1
    have hNn : N ≠ n := fun hNn =>
      (List.nodup_cons.mp hnb).1 (by simp [hNn])
    apply Leads.read
    · rw [frameStep, next_holding, hnext]
      rfl
    exact .lock (by simpa using ⟨hNn, hN⟩)
      (.finish (fun _ => rfl) (meet_isStore l a (N :: b) n)
        (by simpa using ⟨⟨hNn, hN⟩, hleft⟩) (by simp [unlink, detach]))

section enter

omit h
variable {i : Nat} {s' : Memory} {r : Answer}

/-- The node has no predecessor. -/
theorem remove_first (hprev : s.previous n = .sentinel)
    (hrest : Leads i s [.node n, .head l] (.removeHead l n) s' r) :
    Leads (i + 4) s [] (.removePrev l n) s' r := by
  apply Leads.read
  · rw [frameStep, previous_holding, hprev]
  refine .lock (by simp) (.lock (by simp [leftLock]) ?_)
  apply Leads.read
  · rw [frameStep, previous_holding, hprev, if_neg (by simp), if_pos rfl]
  exact hrest

theorem remove_after {p : Nat} (hprev : s.previous n = .node p) (hnp : n ≠ p)
    (hrest : Leads i s [.node n, .node p] (.removeNext l n (.node p)) s' r) :
    Leads (i + 4) s [] (.removePrev l n) s' r := by
  apply Leads.read
  · rw [frameStep, previous_holding, hprev]
  refine .lock (by simp) (.lock (by simpa [leftLock] using hnp) ?_)
  apply Leads.read
  · rw [frameStep, previous_holding, hprev, if_neg (by simp), if_neg (by simp)]
  exact hrest

end enter

theorem remove_mem (hn : n ∈ lists l) :
    Ends s (.remove l n) (update lists l ((lists l).erase n))
      (.removed true) := by
  obtain ⟨a, b, hl⟩ := List.append_of_mem hn
  have hnd := h.nodup l
  have hseg := h.chain l
  rw [hl] at hnd hseg
  have hna : n ∉ a := fun hx =>
    (List.nodup_append.mp hnd).2.2 n hx n (by simp) rfl
  have herase : (lists l).erase n = a ++ b := by
    rw [hl, List.erase_append_right _ hna, List.erase_cons_head]
  have hprev : s.previous n = lastOr .sentinel a := hseg.neighbours.1
  have hfound := remove_found h hl (i := 5)
  rw [herase]
  rcases List.eq_nil_or_concat' a with rfl | ⟨a, p, rfl⟩
  · refine Leads.ends (i := 21) (remove_first hprev ?_) (by decide)
      (h.unlink hl)
    apply Leads.read
    · rw [frameStep, read_head h, hl, if_neg (by simp)]
    exact hfound
  · rw [lastOr_concat] at hprev hfound
    have hnp : n ≠ p := fun hnp => hna (by simp [hnp])
    exact Leads.ends (remove_after hprev hnp hfound) (by decide) (h.unlink hl)

theorem remove_detached (hn : ∀ l, n ∉ lists l) :
    Ends s (.remove l n) lists (.removed false) := by
  refine Leads.ends (i := 20) ?_ (by decide) h
  apply Leads.read
  · rw [Call.enter, frameStep, previous_holding, (h.detached n hn).1]
  exact .done _

/-- The first node of another list is not `head`. -/
theorem remove_foreignFirst {l' : Nat} {rest : List Nat} (hn : n ∉ lists l)
    (hl : lists l' = n :: rest) :
    Ends s (.remove l n) lists (.removed false) := by
  have hseg := h.chain l'
  rw [hl] at hseg
  have hhead : (lists l).head? ≠ some n := fun hx =>
    hn (List.mem_of_mem_head? hx)
  refine Leads.ends (i := 20) (remove_first hseg.1 ?_) (by decide) h
  apply Leads.read
  · rw [frameStep, read_head h, if_pos hhead]
  exact .giveUp (by simp) (by simp)

/-- The last node of another list is not `tail`. -/
theorem remove_foreignLast {l' p : Nat} {a : List Nat} (hn : n ∉ lists l)
    (hl : lists l' = a ++ [p] ++ [n]) :
    Ends s (.remove l n) lists (.removed false) := by
  have hseg := h.chain l'
  have hnd := h.nodup l'
  rw [hl] at hseg hnd
  obtain ⟨hprev, hnext⟩ := hseg.neighbours
  rw [lastOr_concat] at hprev
  have hnp : n ≠ p := fun hnp =>
    (List.nodup_append.mp hnd).2.2 p (by simp) n (by simp) hnp.symm
  have htail : (lists l).getLast? ≠ some n := fun hx =>
    hn (List.mem_of_getLast? hx)
  refine Leads.ends (i := 20) (remove_after hprev hnp ?_) (by decide) h
  apply Leads.read
  · rw [frameStep, next_holding, hnext]
    rfl
  refine .lock (by simp) ?_
  apply Leads.read
  · rw [frameStep, read_tail h, if_pos htail]
  exact .giveUp (by simpa using hnp) (by simp)

-- ==== splices

omit h in
/-- Five different locks at most, and none of a node. -/
theorem sentinelPair_locks (front : Bool) (hne : l ≠ source) :
    (sentinelPair front l source).reverse.Nodup
      ∧ (sentinelPair front l source).length ≤ 5
      ∧ ∀ x, Lock.node x ∉ (sentinelPair front l source).reverse := by
  rw [List.nodup_reverse]
  unfold sentinelPair
  cases front with
  | false =>
    by_cases hlt : l < source
    · simp [hlt, headTail, allSentinels, hne]
    · simp [hlt, headTail, allSentinels, hne.symm]
  | true =>
    by_cases hlt : l < source
    · simp [hlt, headTail, hne]
    · simp [hlt, headTail, hne.symm]

omit h in
theorem splice_none (front : Bool) (hl : lists source = []) :
    update (update lists source []) l
      (spliced front (lists l) (lists source)) = lists := by
  have hown : spliced front (lists l) (lists source) = lists l := by
    unfold spliced
    rw [hl, List.append_nil, List.nil_append, ite_self]
  rw [hown, ← hl, update_eq_self, update_eq_self]

/-- The source has nodes and is emptied. -/
theorem splice_taken {srcHead i : Nat} {front : Bool} {s' : Memory}
    {r : Answer} (hhead : (lists source).head? = some srcHead)
    (hrest : Leads i (s.acts [.setHead source none, .setTail source none]) ks
      (.spliceThis front l source srcHead (lists source).getLast?) s' r) :
    Leads (i + 5) s ks (.spliceHead front l source) s' r := by
  apply Leads.read
  · rw [frameStep, read_head h, hhead]
  apply Leads.read
  · rw [frameStep, read_tail h]
  rw [Nat.add_comm]
  exact Leads.stores (by simp [Act.isStore]) hrest

/-- A splice, with the ends of both lists locked. -/
theorem splice_locked (front : Bool) (hne : l ≠ source) :
    ∃ s', Leads 20 s (sentinelPair front l source).reverse
        (.spliceHead front l source) s' .nothing
      ∧ Represents s' (update (update lists source []) l
        (spliced front (lists l) (lists source))) := by
  obtain ⟨hnd, hlen, hnode⟩ := sentinelPair_locks front hne
  cases hhead : (lists source).head? with
  | none =>
    refine ⟨s, ?_, ?_⟩
    · apply Leads.read
      · rw [frameStep, read_head h, hhead]
      apply Leads.read
      · rw [frameStep]
      exact .giveUp hnd (by simp; omega)
    · rw [splice_none front (List.head?_eq_none_iff.mp hhead)]
      exact h
  | some srcHead =>
    have hown (ks : List Lock) : (if front then ((s.acts [.setHead source none,
            .setTail source none]).holding (hold 0 ks)).head l
          else ((s.acts [.setHead source none,
            .setTail source none]).holding (hold 0 ks)).tail l)
          = if front then (lists l).head? else (lists l).getLast? := by
      rw [← h.head, ← h.tail]
      exact if_congr Iff.rfl (update_of_ne hne _ _) (update_of_ne hne _ _)
    cases hx : (if front then (lists l).head? else (lists l).getLast?) with
    | none =>
      have hl : lists l = [] := by
        cases front with
        | false => exact List.getLast?_eq_none_iff.mp hx
        | true => exact List.head?_eq_none_iff.mp hx
      have hrep := h.spliceEmpty front hne hl
      rw [hhead] at hrep
      refine ⟨_, splice_taken h (i := 15) hhead ?_, hrep⟩
      apply Leads.read
      · rw [frameStep, hown, hx]
      exact .finish (fun _ => rfl) (by simp [Act.isStore]) hnd
        (by simp [unlockSentinels]; omega)
    | some x =>
      obtain ⟨srcTail, htail⟩ : ∃ y, (lists source).getLast? = some y :=
        Option.isSome_iff_exists.mp (by
          rw [List.getLast?_isSome]
          intro hnil
          rw [hnil] at hhead
          cases hhead)
      refine ⟨_, splice_taken h (i := 15) hhead ?_, h.splice hne hhead htail hx⟩
      apply Leads.read
      · rw [frameStep, hown, hx, htail]
      refine .lock (hnode x) (.finish (fun m => ?_) ?_
        (List.nodup_cons.mpr ⟨hnode x, hnd⟩) ?_)
      · rw [List.append_assoc]
        rfl
      · cases front with
        | false | true => simp [spliceLinks, Act.isStore]
      · cases front with
        | false | true => simp [spliceLinks, unlockSentinels]; omega

theorem splice_alone (front : Bool) (hc : c.enter
      = if l = source then .done .nothing
        else .lockAll (sentinelPair front l source)
          (.spliceHead front l source)) :
    Ends s c (if l = source then lists
      else update (update lists source []) l
        (spliced front (lists l) (lists source))) .nothing := by
  by_cases hne : l = source
  · rw [if_pos hne] at hc ⊢
    exact Leads.ends (i := 0) (hc ▸ .done _) (by decide) h
  rw [if_neg hne] at hc ⊢
  obtain ⟨s', hs', hrep⟩ := splice_locked h front hne
  obtain ⟨hnd, hlen, -⟩ := sentinelPair_locks front hne
  refine Leads.ends (i := 20 + (sentinelPair front l source).length) ?_
    (by unfold stepBound; omega) hrep
  rw [hc]
  rw [← List.append_nil (sentinelPair front l source).reverse] at hnd hs'
  exact Leads.lockAll hnd hs'

end calls

-- ==== all calls

/-- A pushed node is in no list. -/
def Call.Fresh (lists : Nat → List Nat) : Call → Prop
  | .pushFront _ n => ∀ l, n ∉ lists l
  | .pushBack _ n => ∀ l, n ∉ lists l
  | _ => True

/-- The node of a `remove` that is not in the list named is not between
two nodes of another one. -/
def Call.NotBetween (lists : Nat → List Nat) : Call → Prop
  | .remove l n => n ∉ lists l → ∀ l', n ∈ lists l' →
      (lists l').head? = some n ∨ (lists l').getLast? = some n
  | _ => True

theorem remove_notMem (h : Represents s lists) (hn : n ∉ lists l)
    (hclear : (Call.remove l n).NotBetween lists) :
    Ends s (.remove l n) lists (.removed false) := by
  by_cases hmem : ∃ l', n ∈ lists l'
  · obtain ⟨l', hmem⟩ := hmem
    have hend := hclear hn l' hmem
    obtain ⟨a, b, hl⟩ := List.append_of_mem hmem
    have hnd := h.nodup l'
    rw [hl] at hend hnd
    obtain ⟨-, hnb, hdisj⟩ := List.nodup_append.mp hnd
    have hna : n ∉ a := fun hx => hdisj n hx n (by simp) rfl
    rcases List.eq_nil_or_concat' a with rfl | ⟨a, p, rfl⟩
    · exact remove_foreignFirst h hn hl
    · rcases List.eq_nil_or_concat' b with rfl | ⟨b, q, rfl⟩
      · exact remove_foreignLast h hn hl
      · -- both neighbours are nodes, so it is at neither end
        rcases hend with hend | hend
        · refine absurd (List.mem_of_mem_head? ?_) hna
          rwa [List.head?_append_of_ne_nil _ (by simp)] at hend
        · rw [← List.cons_append, ← List.append_assoc,
            List.getLast?_concat] at hend
          exact absurd (by simp [Option.some.inj hend])
            (List.nodup_cons.mp hnb).1
  · exact remove_detached h fun l' hl' => hmem ⟨l', hl'⟩

/-- A call with nobody else about does to the lists what `Call.apply`
says. -/
theorem callAlone_apply (h : Represents s lists) (hfresh : c.Fresh lists)
    (hclear : c.NotBetween lists) :
    Ends s c (c.apply lists).1 (c.apply lists).2 := by
  cases c with
  | pushFront l n => exact pushFront_alone h hfresh
  | pushBack l n => exact pushBack_alone h hfresh
  | remove l n =>
    rw [Call.apply]
    by_cases hn : n ∈ lists l
    · rw [if_pos hn]
      exact remove_mem h hn
    · rw [if_neg hn]
      exact remove_notMem h hn hclear
  | popFront l => exact popFront_alone h
  | popBack l => exact popBack_alone h
  | spliceFront l source =>
    rw [Call.apply, apply_ite Prod.fst, apply_ite Prod.snd, ite_self]
    exact splice_alone h true rfl
  | spliceBack l source =>
    rw [Call.apply, apply_ite Prod.fst, apply_ite Prod.snd, ite_self]
    exact splice_alone h false rfl

/-- The memory holds the lists, and all locks are free. -/
def Settled (s : Memory) (lists : Nat → List Nat) : Prop :=
  Represents s lists ∧ ∀ k, s.holder k = none

/-- What every call meets. -/
def Call.Clear (lists : Nat → List Nat) (c : Call) : Prop :=
  c.Fresh lists ∧ c.NotBetween lists

theorem settled_step (s : Memory) (lists : Nat → List Nat) (c : Call)
    (h : Settled s lists) (hc : c.Clear lists) :
    ∃ s', callAlone s c = .ok (s', (c.apply lists).2)
      ∧ Settled s' (c.apply lists).1 := by
  obtain ⟨s', hs', hrep⟩ := callAlone_apply h.1 hc.1 hc.2
  have hs : s.holding (hold 0 []) = s := by
    have hfree : hold 0 [] = s.holder := funext fun k => by
      simp [hold, h.2 k]
    rw [hfree]
    rfl
  rw [hs] at hs'
  exact ⟨_, hs', hrep.congr rfl rfl rfl rfl, fun k => by
    simp [Memory.holding, hold]⟩

/-- One call after the other, on any number of lists: every answer is
that of the sequences, and so are the lists in the end. -/
theorem calls_apply {calls : List Call} (h : Settled s lists)
    (hcalls : SpecAlong Call.apply Call.Clear lists calls) :
    ∃ s', run callAlone s calls
        = .ok (s', (specRun Call.apply lists calls).2)
      ∧ Settled s' (specRun Call.apply lists calls).1 :=
  run_refines_spec settled_step h hcalls

/-- Two lists, a node refused because it is the last one of the other
list, and a splice. -/
theorem calls_apply_twoLists :
    ∃ s', run callAlone Memory.create [.pushBack 0 4, .pushFront 1 5,
        .pushBack 1 6, .remove 0 6, .spliceFront 0 1, .remove 0 6,
        .popBack 0]
        = .ok (s', [.nothing, .nothing, .nothing, .removed false, .nothing,
          .removed true, .popped (some 4)])
      ∧ Settled s' (specRun Call.apply (fun _ => [])
        [.pushBack 0 4, .pushFront 1 5, .pushBack 1 6, .remove 0 6,
          .spliceFront 0 1, .remove 0 6, .popBack 0]).1 := by
  refine calls_apply ⟨represents_create, fun _ => rfl⟩ ?_
  refine ⟨⟨?_, trivial⟩, ⟨?_, trivial⟩, ⟨?_, trivial⟩, ⟨trivial, ?_⟩,
    ⟨trivial, trivial⟩, ⟨trivial, ?_⟩, ⟨trivial, trivial⟩, trivial⟩
  · simp [Call.Fresh]
  · simp [Call.Fresh, Call.apply, update_apply]
  · intro l
    simp only [Call.apply, update_apply]
    split
    · simp
    · simp
  · intro _ l hl
    simp only [Call.apply, update_apply] at hl ⊢
    by_cases h1 : l = 1
    · simp [h1]
    · simp [h1] at hl
  · intro hn
    exact absurd (by decide) hn

/-- A node between two others of list 1 is taken out of it by a `remove`
on list 0, which says that it was there. -/
theorem remove_foreignMiddle :
    ∃ s', run callAlone Memory.create [.pushBack 1 1, .pushBack 1 2,
        .pushBack 1 3, .remove 0 2]
        = .ok (s', [.nothing, .nothing, .nothing, .removed true])
      ∧ s'.head 0 = none ∧ s'.next 1 = .node 3 ∧ s'.previous 3 = .node 1
      ∧ (specRun Call.apply (fun _ => []) [.pushBack 1 1,
        .pushBack 1 2, .pushBack 1 3, .remove 0 2]).2
        = [.nothing, .nothing, .nothing, .removed false] := by
  decide +kernel

end CroCOS.AtomicIntrusiveLinkedList
