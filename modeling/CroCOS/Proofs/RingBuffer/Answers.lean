/-
What one call of a ring buffer shows, from its start to its return: it is
refused and shows nothing else, or it shows the slots of its batch, one
position after the other, and then returns (`Answers`). `Shown` is what it
has shown at each frame.
-/
import CroCOS.RingBuffer

namespace CroCOS.RingBuffer

open Lib

-- ==== batches

section Batches

variable {α ε : Type} (ev : Nat → α → ε) (start : Nat) (xs : List α)

/-- The events of a batch: one for each element, at the positions from
`start` on. -/
def batch : List ε := (xs.zipIdx start).map fun p => ev p.2 p.1

theorem batch_concat (x : α) : batch ev start (xs ++ [x])
    = batch ev start xs ++ [ev (start + xs.length) x] := by
  simp [batch, List.zipIdx_append]

end Batches

variable {Item : Type} {cfg : Config} {s s' : Shared Item}
variable {call : Call Item} {es : List (Event Item)} {f : Frame Item}
variable {l : Option (Frame Item)} {e : Option (Event Item)} {b : Batch}
variable {side : Side} {i : Nat}

/-- What a call shows: where `n` positions are available, all that it asks
for or as many as there are, and it returns how it went. -/
inductive Answers : Call Item → List (Event Item) → Prop
  | noSpace {mode : WriteMode} {items : List Item} {n : Nat} {r : Result} :
      writeCount mode items n = .error r →
      Answers (.write mode items) [.returned r]
  | wrote {mode : WriteMode} {items : List Item} {n k claimed : Nat} :
      writeCount mode items n = .ok k →
      Answers (.write mode items) (batch .wrote claimed (items.take k)
        ++ [.returned (writeResult k mode)])
  | noItems {mode : ReadMode} {count n : Nat} {r : Result} :
      readCount mode count n = .error r →
      Answers (.read mode count) [.returned r]
  | read {mode : ReadMode} {count n claimed : Nat}
      {xs : List (Option Item)} : readCount mode count n = .ok xs.length →
      Answers (.read mode count) (batch .read claimed xs
        ++ [.returned (readResult xs.length mode)])

-- ==== on the way

/-- The write has shown `i` items of its batch; `rest` is to come. -/
def Writing (call : Call Item) (es : List (Event Item)) (b : Batch)
    (i : Nat) (rest : List Item) : Prop :=
  ∃ mode items n done, call = .write mode items
    ∧ writeCount mode items n = .ok b.count
    ∧ b.result = writeResult b.count mode ∧ done.length = i
    ∧ items.take b.count = done ++ rest ∧ es = batch .wrote b.claimed done

/-- The read has shown `i` positions of its batch. -/
def Received (call : Call Item) (es : List (Event Item)) (b : Batch)
    (i : Nat) : Prop :=
  ∃ mode count n xs, call = .read mode count
    ∧ readCount mode count n = .ok b.count
    ∧ b.result = readResult b.count mode ∧ xs.length = i
    ∧ es = batch .read b.claimed xs

/-- All that is left to show is the return. -/
def Returning (call : Call Item) (es : List (Event Item)) (b : Batch) :
    Prop := Answers call (es ++ [.returned b.result])

/-- What the call has shown, where it goes on with the frame. -/
def Shown (call : Call Item) (es : List (Event Item)) :
    Option (Frame Item) → Prop
  | none => Answers call es
  | some (.loadWriteHead mode items) => call = .write mode items ∧ es = []
  | some (.checkSpace mode items _) => call = .write mode items ∧ es = []
  | some (.claimWrite mode items _ k) =>
    call = .write mode items ∧ es = [] ∧ ∃ n, writeCount mode items n = .ok k
  | some (.waitForSlotReadable b i rest) => Writing call es b i rest
  | some (.writeSlot _ b i rest) => Writing call es b i rest
  | some (.loadReadingHead mode count) => call = .read mode count ∧ es = []
  | some (.checkItems mode count _) => call = .read mode count ∧ es = []
  | some (.claimRead mode count _ k) =>
    call = .read mode count ∧ es = [] ∧ ∃ n, readCount mode count n = .ok k
  | some (.readSlot b i) => i < b.count ∧ Received call es b i
  | some (.advanceCompletionHead _ b) => Returning call es b
  | some (.storeGen _ b _) => Returning call es b
  | some (.advanceWithScan _ b _) => Returning call es b
  | some (.scan _ b _ _) => Returning call es b
  | some (.advanceScanned _ b _ _) => Returning call es b

/-- The step shows nothing. -/
theorem Shown.silent (h : Shown call es l) :
    Shown call (es ++ (none : Option (Event Item)).toList) l := by
  rwa [Option.toList_none, List.append_nil]

theorem Returning.genLoop (h : Returning call es b) :
    Shown call es (some (genLoop side b i)) := by
  unfold RingBuffer.genLoop
  split_ifs <;> exact h

theorem Returning.complete (h : Returning call es b) :
    Shown call es (some (complete cfg side b)) := by
  unfold RingBuffer.complete
  split_ifs
  · exact h.genLoop
  · exact h

theorem Writing.returning (h : Writing call es b i []) :
    Returning call es b := by
  obtain ⟨mode, items, n, done, rfl, hg, hr, -, hdone, rfl⟩ := h
  rw [Returning, hr, ← List.append_nil done, ← hdone]
  exact .wrote hg

theorem Writing.loop {rest : List Item} {wait : Bool}
    (h : Writing call es b i rest) :
    Shown call es (some (writeLoop cfg wait b i rest)) := by
  cases rest with
  | nil => exact h.returning.complete
  | cons x rest =>
    unfold writeLoop
    split_ifs <;> exact h

theorem Received.loop (h : Received call es b i) (hi : i ≤ b.count) :
    Shown call es (some (readLoop cfg b i)) := by
  unfold readLoop
  split_ifs with hlt
  · exact ⟨hlt, h⟩
  · obtain ⟨mode, count, n, xs, rfl, hg, hr, hxs, rfl⟩ := h
    refine Returning.complete ?_
    rw [show b.count = xs.length by omega] at hg hr
    rw [Returning, hr]
    exact .read hg

/-- A step of the call. -/
theorem Shown.step (h : Shown call es (some f))
    (hs : frameStep cfg s f = .ok (s', l, e)) :
    Shown call (es ++ e.toList) l := by
  cases f with
  | loadWriteHead mode items | loadReadingHead mode count =>
    cases hs
    exact h.silent
  | checkSpace mode items claimed =>
    obtain ⟨rfl, rfl⟩ := h
    simp only [frameStep] at hs
    split at hs
    · rename_i hg
      cases hs
      exact .noSpace hg
    · rename_i hg
      cases hs
      exact ⟨rfl, rfl, _, hg⟩
  | checkItems mode count claimed =>
    obtain ⟨rfl, rfl⟩ := h
    simp only [frameStep] at hs
    split at hs
    · rename_i hg
      cases hs
      exact .noItems hg
    · rename_i hg
      cases hs
      exact ⟨rfl, rfl, _, hg⟩
  | claimWrite mode items claimed k =>
    obtain ⟨rfl, rfl, n, hg⟩ := h
    simp only [frameStep] at hs
    split_ifs at hs
    · cases hs
      exact Writing.loop ⟨mode, items, n, [], rfl, hg, rfl, rfl, rfl, rfl⟩
    · cases hs
      exact ⟨rfl, rfl⟩
  | claimRead mode count claimed k =>
    obtain ⟨rfl, rfl, n, hg⟩ := h
    simp only [frameStep] at hs
    split_ifs at hs
    · cases hs
      exact Received.loop ⟨mode, count, n, [], rfl, hg, rfl, rfl, rfl⟩
        (Nat.zero_le _)
    · cases hs
      exact ⟨rfl, rfl⟩
  | writeSlot wait b i rest =>
    cases rest with
    | nil =>
      cases hs
      exact (Writing.returning h).complete.silent
    | cons x rest =>
      obtain ⟨slot, -, hs⟩ := bind_inv hs
      cases hs
      obtain ⟨mode, items, n, done, rfl, hg, hr, rfl, hdone, rfl⟩ := h
      rw [List.append_cons] at hdone
      exact Writing.loop ⟨mode, items, n, done ++ [x], rfl, hg, hr,
        List.length_append, hdone, (batch_concat ..).symm⟩
  | readSlot b i =>
    obtain ⟨hi, mode, count, n, xs, rfl, hg, hr, rfl, rfl⟩ := h
    obtain ⟨slot, -, hs⟩ := bind_inv hs
    cases hs
    exact Received.loop ⟨mode, count, n, xs ++ [_], rfl, hg, hr,
      List.length_append, (batch_concat ..).symm⟩ hi
  | storeGen side b i =>
    obtain ⟨slot, -, hs⟩ := bind_inv hs
    cases hs
    exact (Returning.genLoop h).silent
  | scan side b desired scanPos =>
    obtain ⟨slot, -, hs⟩ := bind_inv hs
    simp only [finish] at hs
    split_ifs at hs <;> cases hs
    · exact h
    · exact Shown.silent h
    · exact Shown.silent h
  | _ =>
    -- the return is shown at once or still to come
    simp only [frameStep, finish] at hs
    split_ifs at hs <;> cases hs <;> first | exact h | exact Shown.silent h

/-- What a thread that has been given a call has shown since. -/
theorem next_shown {t : Nat} {l₀ : Option (Frame Item)}
    (h : Shown call es l₀) (hs : next cfg t s l₀ none = .ok (s', l, e)) :
    Shown call (es ++ e.toList) l := by
  cases l₀ with
  | some f => exact h.step hs
  | none =>
    cases hs
    exact h.silent

theorem start_shown (call : Call Item) : Shown call [] (some (start call)) := by
  cases call with
  | write mode items | read mode count => exact ⟨rfl, rfl⟩

end CroCOS.RingBuffer
