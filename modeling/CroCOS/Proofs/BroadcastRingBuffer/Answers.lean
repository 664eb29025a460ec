/-
What one call of a broadcast ring buffer shows, from its start to its
return: it is refused and shows nothing else, or it shows the slots of its
batch, one position after the other, and then returns (`Answers`).
`Shown` is what it has shown at each frame.
-/
import CroCOS.BroadcastRingBuffer
import CroCOS.Proofs.RingBuffer.Answers

namespace CroCOS.BroadcastRingBuffer

open Lib
open RingBuffer (Result Batch batch batch_concat)

variable {Item : Type} {cfg : Config} {s s' : Shared Item}
variable {call : Call Item} {es : List (Event Item)} {f : Frame Item}
variable {l : Option (Frame Item)} {e : Option (Event Item)}

/-- What a call shows: where `n` positions are available, all that it asks
for or as many as there are, and it returns how it went. -/
inductive Answers : Call Item → List (Event Item) → Prop
  | noSpace {mode : Mode} {items : List Item} {n : Nat} {r : Result} :
      grant mode items.length n = .error r →
      Answers (.write mode items) [.returned r]
  | wrote {mode : Mode} {items : List Item} {n k claimed : Nat} :
      grant mode items.length n = .ok k →
      Answers (.write mode items) (batch .wrote claimed (items.take k)
        ++ [.returned (resultOf k mode)])
  | noItems {mode : Mode} {h count n : Nat} {r : Result} :
      grant mode count n = .error r →
      Answers (.read mode h count) [.returned r]
  | read {mode : Mode} {h count n myHead : Nat} {xs : List (Option Item)} :
      grant mode count n = .ok xs.length →
      Answers (.read mode h count) (batch (.read h) myHead xs
        ++ [.returned (resultOf xs.length mode)])

-- ==== on the way

/-- The write has shown `i` items of its batch; `rest` is to come. -/
def Writing (call : Call Item) (es : List (Event Item)) (b : Batch)
    (i : Nat) (rest : List Item) : Prop :=
  ∃ mode items n done, call = .write mode items
    ∧ grant mode items.length n = .ok b.count
    ∧ b.result = resultOf b.count mode ∧ done.length = i
    ∧ items.take b.count = done ++ rest ∧ es = batch .wrote b.claimed done

/-- The read has shown `i` positions of its batch. -/
def Received (call : Call Item) (es : List (Event Item)) (r : ReadBatch)
    (i : Nat) : Prop :=
  ∃ mode count n xs, call = .read mode r.headNumber count
    ∧ grant mode count n = .ok r.count ∧ r.result = resultOf r.count mode
    ∧ xs.length = i ∧ es = batch (.read r.headNumber) r.myHead xs

/-- All that is left to show is the return. -/
def Returning (call : Call Item) (es : List (Event Item)) (r : Result) :
    Prop := Answers call (es ++ [.returned r])

/-- What the call has shown, where it goes on with the frame. -/
def Shown (call : Call Item) (es : List (Event Item)) :
    Option (Frame Item) → Prop
  | none => Answers call es
  | some (.loadWriteHead mode items) => call = .write mode items ∧ es = []
  | some (.checkSpace mode items _) => call = .write mode items ∧ es = []
  | some (.claimWrite mode items _ k) =>
    call = .write mode items ∧ es = []
      ∧ ∃ n, grant mode items.length n = .ok k
  | some (.writeSlot b i rest) => Writing call es b i rest
  | some (.advanceCompletionHead b) => Returning call es b.result
  | some (.loadMyHead mode h count) => call = .read mode h count ∧ es = []
  | some (.checkItems mode h count _) => call = .read mode h count ∧ es = []
  | some (.readSlot r i) => i < r.count ∧ Received call es r i
  | some (.storeMyHead r) => Returning call es r.result
  | some (.loadAck r _) => Returning call es r.result
  | some (.casAck r _ _) => Returning call es r.result
  | some (.loadReadHead r _) => Returning call es r.result
  | some (.checkAck r _ _) => Returning call es r.result
  | some (.casReadHead r _ _) => Returning call es r.result

/-- The step shows nothing. -/
theorem Shown.silent (h : Shown call es l) :
    Shown call (es ++ (none : Option (Event Item)).toList) l := by
  rwa [Option.toList_none, List.append_nil]

theorem Writing.returning {b : Batch} {i : Nat}
    (h : Writing call es b i []) : Returning call es b.result := by
  obtain ⟨mode, items, n, done, rfl, hg, hr, -, hdone, rfl⟩ := h
  rw [Returning, hr, ← List.append_nil done, ← hdone]
  exact .wrote hg

theorem Writing.loop {b : Batch} {i : Nat} {rest : List Item}
    (h : Writing call es b i rest) :
    Shown call es (some (writeLoop b i rest)) := by
  cases rest with
  | nil => exact h.returning
  | cons x rest => exact h

theorem Received.loop {r : ReadBatch} {i : Nat} (h : Received call es r i)
    (hi : i ≤ r.count) : Shown call es (some (readLoop r i)) := by
  unfold readLoop
  split_ifs with hlt
  · exact ⟨hlt, h⟩
  · obtain ⟨mode, count, n, xs, rfl, hg, hr, hxs, rfl⟩ := h
    rw [show r.count = xs.length by omega] at hg hr
    show Answers _ (_ ++ [.returned r.result])
    rw [hr]
    exact .read hg

/-- The next acknowledgement, or the end of the read. -/
theorem Returning.ackLoop {r : ReadBatch} {i : Nat}
    (h : Returning call es r.result) (hs : ackLoop s r i = (s', l, e)) :
    Shown call (es ++ e.toList) l := by
  unfold BroadcastRingBuffer.ackLoop at hs
  split_ifs at hs
  · cases hs
    exact Shown.silent h
  · cases hs
    exact h

/-- A step of the call. -/
theorem Shown.step (h : Shown call es (some f))
    (hs : frameStep cfg s f = .ok (s', l, e)) :
    Shown call (es ++ e.toList) l := by
  cases f with
  | loadWriteHead mode items =>
    cases hs
    exact h.silent
  | checkSpace mode items claimed =>
    obtain ⟨rfl, rfl⟩ := h
    simp only [frameStep] at hs
    split at hs
    · rename_i hg
      cases hs
      exact .noSpace hg
    · rename_i hg
      cases hs
      exact ⟨rfl, rfl, _, hg⟩
  | claimWrite mode items claimed k =>
    obtain ⟨rfl, rfl, n, hg⟩ := h
    simp only [frameStep] at hs
    split at hs
    · cases hs
      exact Writing.loop ⟨mode, items, n, [], rfl, hg, rfl, rfl, rfl, rfl⟩
    · cases hs
      exact ⟨rfl, rfl⟩
  | writeSlot b i rest =>
    cases rest with
    | nil =>
      cases hs
      exact Shown.silent (Writing.returning h)
    | cons x rest =>
      obtain ⟨slot, -, hs⟩ := bind_inv hs
      cases hs
      obtain ⟨mode, items, n, done, rfl, hg, hr, rfl, hdone, rfl⟩ := h
      rw [List.append_cons] at hdone
      exact Writing.loop ⟨mode, items, n, done ++ [x], rfl, hg, hr,
        List.length_append, hdone, (batch_concat ..).symm⟩
  | advanceCompletionHead b =>
    simp only [frameStep] at hs
    split_ifs at hs
    · cases hs
      exact h
    · cases hs
      exact h
    · cases hs
      exact h.silent
  | loadMyHead mode hd count =>
    obtain ⟨k, -, hs⟩ := bind_inv hs
    cases hs
    exact h.silent
  | checkItems mode hd count myHead =>
    obtain ⟨rfl, rfl⟩ := h
    simp only [frameStep] at hs
    split at hs
    · rename_i hg
      cases hs
      exact .noItems hg
    · rename_i hg
      cases hs
      exact Received.loop
        ⟨mode, count, _, [], rfl, hg, rfl, rfl, rfl⟩ (Nat.zero_le _)
  | readSlot r i =>
    obtain ⟨hi, mode, count, n, xs, rfl, hg, hr, rfl, rfl⟩ := h
    obtain ⟨slot, -, hs⟩ := bind_inv hs
    cases hs
    exact Received.loop ⟨mode, count, n, xs ++ [_], rfl, hg, hr,
      List.length_append, (batch_concat ..).symm⟩ hi
  | storeMyHead r =>
    obtain ⟨k, -, hs⟩ := bind_inv hs
    exact Returning.ackLoop h (Except.ok.inj hs)
  | loadAck r i =>
    obtain ⟨slot, -, hs⟩ := bind_inv hs
    cases hs
    exact h.silent
  | casAck r i val =>
    obtain ⟨slot, -, hs⟩ := bind_inv hs
    simp only at hs
    split_ifs at hs
    · cases hs
      exact h.silent
    · exact Returning.ackLoop h (Except.ok.inj hs)
    · cases hs
      exact h.silent
  | loadReadHead r i =>
    cases hs
    exact h.silent
  | checkAck r i current =>
    obtain ⟨slot, -, hs⟩ := bind_inv hs
    simp only at hs
    split_ifs at hs
    · exact Returning.ackLoop h (Except.ok.inj hs)
    · cases hs
      exact h.silent
  | casReadHead r i current =>
    simp only [frameStep] at hs
    split_ifs at hs <;> cases hs <;> exact h.silent

/-- What a thread that has been given a call has shown since. -/
theorem next_shown {t : Nat} {l₀ : Option (Frame Item)}
    (h : Shown call es l₀)
    (hs : next cfg t s l₀ none = .ok (s', l, e)) :
    Shown call (es ++ e.toList) l := by
  cases l₀ with
  | some f => exact h.step hs
  | none =>
    cases hs
    exact h.silent

theorem start_shown (call : Call Item) : Shown call [] (some (start call)) := by
  cases call with
  | write mode items | read mode hd count => exact ⟨rfl, rfl⟩

end CroCOS.BroadcastRingBuffer
