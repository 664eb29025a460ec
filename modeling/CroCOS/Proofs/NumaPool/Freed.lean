/-
Freeing keeps a pool sound, whatever pages are freed, as long as they
are sorted: the cursor over the subranges then names the subrange that
`findMetadata` finds (`Cursor.head_eq`), so the indexes counted from the
first page of a run stay inside it.
-/
import CroCOS.Proofs.NumaPool.Sound

namespace CroCOS.NUMAPool

open Lib (Ensures)

variable {bases : List Nat} {subranges cursor : List SubrangeInfo}
variable {sr : SubrangeInfo} {pool : NUMAPool} {a b i : Nat}
variable {rest : List SubrangeInfo}

-- ==== the cursor

/-- The cursor still has every subrange that the pages at or after `a`
may lie in. -/
structure Cursor (subranges cursor : List SubrangeInfo) (a : Nat) : Prop where
  sub : cursor.Sublist subranges
  rest : ∀ sr ∈ subranges, a < sr.rangeEnd → sr ∈ cursor

theorem Cursor.le (h : Cursor subranges cursor a) (hab : a ≤ b) :
    Cursor subranges cursor b :=
  ⟨h.sub, fun sr hsr hlt => h.rest sr hsr (Nat.lt_of_le_of_lt hab hlt)⟩

theorem advanceCursor_sublist (a : Nat) :
    ∀ cursor : List SubrangeInfo, (advanceCursor a cursor).Sublist cursor := by
  intro cursor
  induction cursor with
  | nil => exact .slnil
  | cons sr cursor ih =>
    unfold advanceCursor
    split
    · exact ih.cons sr
    · exact .refl _

theorem mem_advanceCursor (hlt : a < sr.rangeEnd) :
    ∀ {cursor : List SubrangeInfo}, sr ∈ cursor →
      sr ∈ advanceCursor a cursor := by
  intro cursor
  induction cursor with
  | nil => exact fun h => h
  | cons x cursor ih =>
    intro h
    unfold advanceCursor
    split
    · rename_i hge
      rcases List.mem_cons.mp h with rfl | h
      · omega
      · exact ih h
    · exact h

theorem lt_of_advanceCursor :
    ∀ {cursor : List SubrangeInfo}, advanceCursor a cursor = sr :: rest →
      a < sr.rangeEnd := by
  intro cursor
  induction cursor with
  | nil => exact fun h => by cases h
  | cons x cursor ih =>
    intro h
    unfold advanceCursor at h
    split at h
    · exact ih h
    · cases h
      omega

theorem Cursor.advance (h : Cursor subranges cursor a) :
    Cursor subranges (advanceCursor a cursor) a :=
  ⟨(advanceCursor_sublist a cursor).trans h.sub, fun sr hsr hlt =>
    mem_advanceCursor hlt (h.rest sr hsr hlt)⟩

/-- The search finds the subrange an address lies in. -/
theorem Layout.find_eq (h : Layout bases subranges) (hsr : sr ∈ subranges)
    (hlo : sr.rangeStart ≤ b) (hhi : b < sr.rangeEnd) :
    findIn subranges b
      = some (sr.metadataBase + (b - sr.rangeStart) / bigPageSize) := by
  have hfind : ∀ {l : List SubrangeInfo}, sr ∈ l →
      l.Pairwise (fun x y => x.rangeEnd ≤ y.rangeStart) →
      l.find? (fun x => b ≥ x.rangeStart && b < x.rangeEnd) = some sr := by
    intro l hmem hpair
    induction l with
    | nil => cases hmem
    | cons x l ih =>
      obtain ⟨hx, hl⟩ := List.pairwise_cons.mp hpair
      rcases List.mem_cons.mp hmem with rfl | hmem
      · rw [List.find?_cons_of_pos]
        simp [hlo, hhi]
      · have := hx sr hmem
        rw [List.find?_cons_of_neg]
        · exact ih hmem hl
        · simp only [Bool.and_eq_true, decide_eq_true_eq]
          omega
  unfold findIn
  rw [hfind hsr h.apart]
  rfl

/-- What the search finds is in the subrange at the cursor. -/
theorem Cursor.head_eq (hl : Layout bases subranges)
    (h : Cursor subranges (sr :: rest) a) (hlt : a < sr.rangeEnd)
    (hfind : findIn subranges (bigPageBase a) = some i) :
    sr.rangeStart ≤ a := by
  unfold findIn at hfind
  rw [Option.map_eq_some_iff] at hfind
  obtain ⟨x, hx, -⟩ := hfind
  have hmem := List.mem_of_find?_eq_some hx
  have hin := List.find?_some hx
  simp only [Bool.and_eq_true, decide_eq_true_eq] at hin
  have hle := bigPageBase_le a
  have hend : a < x.rangeEnd := by
    have := add_bigPageSize_le (bigPageBase_dvd a) (hl.aligned x hmem).2 hin.2
    have := lt_bigPageBase a
    omega
  -- an earlier subrange would end before the address
  rcases List.mem_cons.mp (h.rest x hmem hend) with rfl | hrest
  · omega
  · have := (List.pairwise_cons.mp (hl.apart.sublist h.sub)).1 x hrest
    omega

/-- The indexes counted from the first page of a run. -/
theorem Layout.index_lt (h : Layout bases subranges) (hsr : sr ∈ subranges)
    (hlo : sr.rangeStart ≤ a) (hab : a ≤ b) (hhi : b < sr.rangeEnd)
    (hfind : findIn subranges (bigPageBase a) = some i) :
    i + (b - a) / bigPageSize < bases.length := by
  obtain ⟨hstart, hend⟩ := h.aligned sr hsr
  have hle := bigPageBase_le a
  have hle' := bigPageBase_le b
  have hlt' := lt_bigPageBase b
  have hlo₁ := le_bigPageBase hstart hlo
  have hlo₂ := le_bigPageBase hstart (Nat.le_trans hlo hab)
  rw [h.find_eq hsr hlo₁ (by omega)] at hfind
  have hfind' := h.find_eq hsr hlo₂ (by omega)
  have hmem : bigPageBase b ∈ bases := by
    by_contra hno
    rw [h.missing b hno] at hfind'
    cases hfind'
  obtain ⟨j, hj, hget⟩ := h.found b hmem
  have hjlt := (List.getElem?_eq_some_iff.mp hget).1
  rw [hfind'] at hj
  cases hj
  cases hfind
  obtain ⟨qb, hqb⟩ := bigPageBase_dvd b
  refine Nat.lt_of_le_of_lt ?_ hjlt
  unfold bigPageSize at *
  omega

-- ==== the runs

theorem Sound.freeBigPageRun (h : pool.Sound bases subranges)
    (firstMetadata : Nat) (run : List PageRef)
    (hlt : ∀ page ∈ run, firstMetadata
      + (page.addr - (run.head?.map PageRef.addr).getD 0) / bigPageSize
        < bases.length) :
    Ensures (·.Sound bases subranges)
      (pool.freeBigPageRun firstMetadata run) := by
  refine .ite (fun _ => .ok h) fun _ => ?_
  refine Ensures.bind (P := fun r : NUMAPool × List Nat =>
    r.1.Sound bases subranges ∧ ∀ i ∈ r.2, i < bases.length) ?_ fun r hr =>
      .ok (hr.1.write hr.2)
  refine Ensures.foldlM (fun page hpage r hr => ?_) ⟨h, by simp⟩
  dsimp only
  split
  · exact .error _
  · refine BigPageMetadata.freeAll_baseAddr.bind fun m hm =>
      .ok ⟨hr.1.setPage _ hm, fun i hi => ?_⟩
    rcases List.mem_append.mp hi with hi | hi
    · exact hr.2 i hi
    · rw [List.mem_singleton.mp hi]
      exact hlt page hpage

theorem Sound.freeSmallPageRun (h : pool.Sound bases subranges)
    (hi : i < bases.length) (run : List PageRef) :
    Ensures (·.Sound bases subranges) (pool.freeSmallPageRun i run) := by
  refine (BigPageMetadata.freePages_baseAddr run).bind fun r hr => ?_
  have hset := h.setPage i hr
  have hone : ∀ j ∈ [i], j < bases.length := fun j hj =>
    List.mem_singleton.mp hj ▸ hi
  refine .ite (fun _ => ?_) fun _ => .ite (fun _ => ?_) fun _ => .ok hset
  · refine .ite (fun _ => .ok hset) fun _ => .ite (fun _ => ?_) fun _ =>
      .ok (hset.writeFreeBigPages hone)
    refine (hset.removePAPage hi).bind fun q hq => ?_
    refine .ite (fun _ => .ite (fun _ => ?_) fun _ => ?_) fun _ => .ok hq
    · exact hq.addPAPage hi
    · exact .ok (hq.writeFreeBigPages hone)
  · split
    · exact .error _
    · exact hset.addPAPage hi

/-- In the order of their addresses. -/
def Sorted (pages : List PageRef) : Prop :=
  pages.Pairwise fun p q => p.addr ≤ q.addr

theorem Sound.freePagesLoop :
    ∀ (fuel : Nat) (cursor : List SubrangeInfo) (pages : List PageRef)
      (pool : NUMAPool), pool.Sound bases subranges → Sorted pages →
      (∀ page ∈ pages, Cursor subranges cursor page.addr) →
      Ensures (·.Sound bases subranges)
        (NUMAPool.freePagesLoop fuel cursor pages pool) := by
  intro fuel
  induction fuel with
  | zero =>
    intro cursor pages pool h _ _
    cases pages with
    | nil => exact .ok h
    | cons page pages => exact .error _
  | succ fuel ih =>
    intro cursor pages pool h hsorted hcursor
    cases pages with
    | nil => exact .ok h
    | cons page pages =>
      have hmin : ∀ q ∈ page :: pages, page.addr ≤ q.addr := by
        intro q hq
        rcases List.mem_cons.mp hq with rfl | hq
        · exact le_rfl
        · exact (List.pairwise_cons.mp hsorted).1 q hq
      have hpage := hcursor page List.mem_cons_self
      have hleft : ∀ (p : PageRef → Bool),
          ∀ q ∈ (page :: pages).dropWhile p, q ∈ page :: pages :=
        fun p q hq => (List.dropWhile_sublist p).subset hq
      unfold NUMAPool.freePagesLoop
      cases hsize : page.size with
      | big =>
        cases hadv : advanceCursor page.addr cursor with
        | nil => exact .error _
        | cons sr rest =>
          have hc : Cursor subranges (sr :: rest) page.addr :=
            hadv ▸ hpage.advance
          have hend := lt_of_advanceCursor hadv
          cases hfind : pool.findMetadata page.addr with
          | none => exact .error _
          | some first =>
            rw [findMetadata_eq, h.subranges] at hfind
            have hstart := hc.head_eq h.layout hend hfind
            refine (h.freeBigPageRun first _ fun q hq => ?_).bind
              fun pool' h' => ih _ _ pool' h'
                (hsorted.sublist (List.dropWhile_sublist _))
                fun q hq => hc.le (hmin q (hleft _ q hq))
            have hin := List.mem_takeWhile_imp hq
            have hmem := (List.takeWhile_sublist _).subset hq
            rw [List.takeWhile_cons_of_pos (by
              simp [hsize, hend])]
            simp only [Bool.and_eq_true, decide_eq_true_eq] at hin
            exact h.layout.index_lt (hc.sub.subset List.mem_cons_self) hstart
              (hmin q hmem) hin.2 hfind
      | small =>
        cases hfind : pool.findMetadata page.addr with
        | none => exact .error _
        | some superpage =>
          have hi : superpage < bases.length := by
            rw [findMetadata_eq, h.subranges] at hfind
            by_cases hmem : bigPageBase page.addr ∈ bases
            · obtain ⟨j, hj, hget⟩ := h.layout.found _ hmem
              rw [hfind] at hj
              cases hj
              exact (List.getElem?_eq_some_iff.mp hget).1
            · rw [h.layout.missing _ hmem] at hfind
              cases hfind
          exact (h.freeSmallPageRun hi _).bind fun pool' h' =>
            ih _ _ pool' h' (hsorted.sublist (List.dropWhile_sublist _))
              fun q hq => hcursor q (hleft _ q hq)

/-- Freeing keeps the pool sound. -/
theorem Sound.freePages (h : pool.Sound bases subranges)
    {pages : List PageRef} (hsorted : Sorted pages) :
    Ensures (·.Sound bases subranges) (pool.freePages pages) := by
  refine Sound.freePagesLoop _ _ _ _ h hsorted fun page _ => ?_
  rw [h.subranges]
  exact ⟨.refl _, fun sr hsr _ => hsr⟩

end CroCOS.NUMAPool
