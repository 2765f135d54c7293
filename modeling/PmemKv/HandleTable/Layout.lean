import PmemKv.HandleTable.Table
import PmemKv.Library.Buckets
import PmemKv.Library.LinkedChain

/-!
# The chains of the handle table

`Layout s n chain` says that the chain of each of the `n` buckets consists of the handles of
`chain i`, that every handle is in the bucket of its hash and that no handle occurs twice.  A handle
is linked into a chain, in place of some of its handles or in front of all, and taken out of a chain
by writing one cell of the chain; this is what `Insert`, `Remove` and each step of `Resize` do.
-/

namespace PmemKv

open LinkedChain Buckets

namespace TableState

variable {H : Type} [DecidableEq H]

/-- The successor of a cell along its chain. -/
def nextCell (s : TableState H) (c : Cell H) : Option (Cell H) := (s.get c).map .nextHash

/-- The chain of bucket `i` consists of the handles of `l`. -/
def Chain (s : TableState H) (i : ℕ) (l : List H) : Prop :=
  Linked s.nextCell (.bucket i) (l.map .nextHash)

/-- The cell behind the handles of `l` at the start of bucket `i`. -/
def lastCell (i : ℕ) (l : List H) : Cell H := (l.map Cell.nextHash).getLastD (.bucket i)

/-- The pair of hash and key that a handle is stored under. -/
def pair (s : TableState H) (h : H) : UInt32 × Bytes := ((s.handles h).hash, (s.handles h).keyData)

/-- The chains of `n` buckets. -/
structure Layout (s : TableState H) (n : ℕ) (chain : ℕ → List H) : Prop where
  /-- Every chain is finite. -/
  linked : ∀ i < n, s.Chain i (chain i)
  /-- Every handle is in the bucket of its hash. -/
  index : ∀ i < n, ∀ h ∈ chain i, bucketIndex (s.handles h).hash n = i
  /-- No handle occurs twice. -/
  nodup : (flat chain n).Nodup

variable {s : TableState H} {n b i : ℕ} {chain : ℕ → List H} {h : H} {c : Cell H} {v : Option H}
  {l l₁ l₂ : List H}

/-! ## Reading and writing cells -/

lemma get_set (s : TableState H) (c c' : Cell H) (v : Option H) :
    (s.set c v).get c' = if c' = c then v else s.get c' := by
  cases c with
  | bucket i =>
    cases c' with
    | bucket j => simp [set, get, Function.update_apply]
    | nextHash h => simp [set, get]
  | nextHash h =>
    cases c' with
    | bucket j => simp [set, get]
    | nextHash h' =>
      by_cases he : h' = h
      · subst he
        simp [set, get]
      · simp [set, get, he]

lemma nextCell_set_self (s : TableState H) (c : Cell H) (v : Option H) :
    (s.set c v).nextCell c = v.map .nextHash := by simp [nextCell, get_set]

lemma nextCell_set_of_ne (s : TableState H) {c c' : Cell H} (v : Option H) (hne : c' ≠ c) :
    (s.set c v).nextCell c' = s.nextCell c' := by simp [nextCell, get_set, hne]

/-- Writing a cell changes no other field of a handle. -/
lemma handles_set (s : TableState H) (c : Cell H) (v : Option H) (h : H) :
    ((s.set c v).handles h).hash = (s.handles h).hash ∧
      ((s.set c v).handles h).keyData = (s.handles h).keyData ∧
      ((s.set c v).handles h).next = (s.handles h).next := by
  cases c with
  | bucket i => exact ⟨rfl, rfl, rfl⟩
  | nextHash h' =>
    by_cases he : h = h'
    · subst he
      simp [set]
    · simp [set, he]

lemma pair_set (s : TableState H) (c : Cell H) (v : Option H) (h : H) :
    (s.set c v).pair h = s.pair h := by
  obtain ⟨h₁, h₂, -⟩ := s.handles_set c v h
  rw [pair, pair, h₁, h₂]

lemma set_length (s : TableState H) (c : Cell H) (v : Option H) :
    (s.set c v).length = s.length ∧ (s.set c v).elems = s.elems := by
  cases c <;> exact ⟨rfl, rfl⟩

omit [DecidableEq H] in
/-- The cells of a chain are distinct if its handles are. -/
lemma nodup_cells (i : ℕ) (hl : l.Nodup) : (Cell.bucket i :: l.map Cell.nextHash).Nodup :=
  List.nodup_cons.mpr ⟨by simp, hl.map fun _ _ he => Cell.nextHash.inj he⟩

omit [DecidableEq H] in
lemma lastCell_eq_or_mem (i : ℕ) (l : List H) :
    lastCell i l = .bucket i ∨ ∃ h ∈ l, lastCell i l = .nextHash h := by
  rcases getLastD_eq_or_mem (l.map Cell.nextHash) (.bucket i) with he | he
  · exact Or.inl he
  · obtain ⟨h, hh, he⟩ := List.mem_map.mp he
    exact Or.inr ⟨h, hh, he.symm⟩

omit [DecidableEq H] in
lemma lastCell_concat (i : ℕ) (l : List H) (h : H) : lastCell i (l ++ [h]) = .nextHash h := by
  simp [lastCell]

omit [DecidableEq H] in
/-- The cell behind an initial part of a chain holds the first handle of the rest. -/
lemma Chain.get_lastCell (hc : s.Chain i (l₁ ++ l₂)) : s.get (lastCell i l₁) = l₂.head? := by
  rw [Chain, List.map_append] at hc
  have hnext : (s.get (lastCell i l₁)).map Cell.nextHash = (l₂.map Cell.nextHash).head? :=
    hc.next_getLastD
  rw [List.head?_map] at hnext
  exact Option.map_injective (fun _ _ he => Cell.nextHash.inj he) hnext

omit [DecidableEq H] in
/-- A handle of a chain is followed by the first handle of the rest. -/
lemma Chain.nextHash_eq {o : H} (hc : s.Chain i (l₁ ++ ([o] ++ l₂))) :
    (s.handles o).nextHash = l₂.head? := by
  rw [← List.append_assoc] at hc
  have hget := hc.get_lastCell
  rwa [lastCell_concat] at hget

namespace Layout

omit [DecidableEq H] in
lemma chain_nodup (hL : s.Layout n chain) (hi : i < n) : (chain i).Nodup := by
  have := hL.nodup
  rw [flat, List.nodup_flatMap] at this
  exact this.1 i (List.mem_range.mpr hi)

omit [DecidableEq H] in
/-- A handle is in one bucket only. -/
lemma index_unique (hL : s.Layout n chain) {j : ℕ} (hi : i < n) (hj : j < n) (h₁ : h ∈ chain i)
    (h₂ : h ∈ chain j) : i = j :=
  (hL.index i hi h h₁).symm.trans (hL.index j hj h h₂)

omit [DecidableEq H] in
/-- The cell at which a chain is changed is not a cell of another chain. -/
lemma lastCell_notMem (hL : s.Layout n chain) (hb : b < n) (hi : i < n) (hib : i ≠ b)
    (hsub : l₁ ⊆ chain b) : lastCell b l₁ ∉ Cell.bucket i :: (chain i).map Cell.nextHash := by
  intro hm
  rcases lastCell_eq_or_mem b l₁ with he | ⟨g, hg, he⟩
  · rw [he] at hm
    simp [hib.symm] at hm
  · rw [he] at hm
    have hgi : g ∈ chain i := by simpa using hm
    exact hib (hL.index_unique hi hb hgi (hsub hg))

omit [DecidableEq H] in
/-- A chain goes on behind the handles of `d` when the cell in front of them leads there. -/
lemma linked_skip {next' : Cell H → Option (Cell H)} {d : List H}
    (hL : s.Layout n chain) (hi : i < n)
    (hc : chain i = l₁ ++ (d ++ l₂)) (hp : next' (lastCell i l₁) = l₂.head?.map .nextHash)
    (heq : ∀ c, c ≠ lastCell i l₁ → next' c = s.nextCell c) :
    Linked next' (.bucket i) (l₁.map .nextHash ++ l₂.map .nextHash) := by
  have hlinked := hL.linked i hi
  have hnd := nodup_cells i (hL.chain_nodup hi)
  rw [Chain] at hlinked
  rw [hc, List.map_append, List.map_append] at hlinked hnd
  refine hlinked.skip hnd ?_ heq
  rw [List.head?_map]
  exact hp

/-- **Linking a handle in.**  The handle `h` takes the place of the handles of `d` in its chain. -/
theorem link (hL : s.Layout n chain) (hb : b < n) (l₁ d l₂ : List H)
    (hc : chain b = l₁ ++ (d ++ l₂))
    (hh : h ∉ flat chain n) (hidx : bucketIndex (s.handles h).hash n = b) :
    ((s.set (.nextHash h) l₂.head?).set (lastCell b l₁) (some h)).Layout n
      (Function.update chain b (l₁ ++ h :: l₂)) := by
  have hsub : l₁ ⊆ chain b := hc ▸ List.subset_append_left _ _
  have hhb : h ∉ chain b := fun hm => hh (mem_flat.mpr ⟨b, hb, hm⟩)
  have hne : Cell.nextHash h ≠ lastCell b l₁ := by
    intro he
    rcases lastCell_eq_or_mem b l₁ with he' | ⟨g, hg, he'⟩
    · exact absurd (he.trans he') (by simp)
    · exact hhb (Cell.nextHash.inj (he.trans he') ▸ hsub hg)
  refine ⟨fun i hi => ?_, fun i hi g hg => ?_, ?_⟩
  · by_cases hib : i = b
    · subst hib
      rw [Function.update_self, Chain, List.map_append, List.map_cons]
      -- first the handles of `d` are taken out, then `h` is put in
      have hskip : Linked (Function.update s.nextCell (lastCell i l₁) (l₂.head?.map .nextHash))
          (.bucket i) (l₁.map .nextHash ++ l₂.map .nextHash) :=
        hL.linked_skip hi hc (Function.update_self _ _ _) fun c hcne =>
          Function.update_of_ne hcne _ _
      have hnd : (Cell.bucket i :: (l₁.map Cell.nextHash ++ l₂.map Cell.nextHash)).Nodup := by
        rw [← List.map_append]
        refine nodup_cells i ((hL.chain_nodup hi).sublist ?_)
        rw [hc]
        exact List.Sublist.append_left (List.sublist_append_right _ _) _
      refine hskip.insert hnd ?_ ?_ ?_ fun c hc₁ hc₂ => ?_
      · intro hm
        rw [hc] at hhb
        simp only [List.mem_cons, reduceCtorEq, false_or, List.mem_append, List.mem_map,
          Cell.nextHash.injEq, exists_eq_right] at hm
        exact hhb (by simpa using hm.imp id Or.inr)
      · exact nextCell_set_self _ _ _
      · rw [nextCell_set_of_ne _ _ hne, nextCell_set_self, List.head?_map]
      · have hc₁' : c ≠ lastCell i l₁ := hc₁
        rw [Function.update_of_ne hc₁', nextCell_set_of_ne _ _ hc₁', nextCell_set_of_ne _ _ hc₂]
    · rw [Function.update_of_ne hib]
      refine (hL.linked i hi).congr fun c hcm => ?_
      rw [nextCell_set_of_ne, nextCell_set_of_ne]
      · rintro rfl
        exact hh (mem_flat.mpr ⟨i, hi, by simpa using hcm⟩)
      · rintro rfl
        exact hL.lastCell_notMem hb hi hib hsub hcm
  · have hhash : (((s.set (.nextHash h) l₂.head?).set (lastCell b l₁) (some h)).handles g).hash =
        (s.handles g).hash :=
      ((handles_set _ _ _ g).1).trans (handles_set _ _ _ g).1
    rw [hhash]
    by_cases hib : i = b
    · subst hib
      rw [Function.update_self] at hg
      rcases List.mem_append.mp hg with hg | hg
      · exact hL.index i hi g (hsub hg)
      · rcases List.mem_cons.mp hg with rfl | hg
        · exact hidx
        · exact hL.index i hi g (hc ▸ by simp [hg])
    · rw [Function.update_of_ne hib] at hg
      exact hL.index i hi g hg
  · obtain ⟨rest, h₁, h₂⟩ := exists_flat_update chain hb
    have hnd := h₁.nodup_iff.mp hL.nodup
    have hh' : h ∉ chain b ++ rest := fun hm => hh (h₁.mem_iff.mpr hm)
    rw [hc] at hnd hh'
    rw [(h₂ _).nodup_iff, List.append_assoc, List.cons_append, List.nodup_middle,
      List.nodup_cons, ← List.append_assoc]
    refine ⟨fun hm => hh' ?_, hnd.sublist ?_⟩
    · simp only [List.mem_append] at hm ⊢
      tauto
    · refine List.Sublist.append_right ?_ _
      exact List.Sublist.append_left (List.sublist_append_right _ _) _

/-- **Taking handles out.**  The handles of `d` are taken out of their chain. -/
theorem unlink (hL : s.Layout n chain) (hb : b < n) (l₁ d l₂ : List H)
    (hc : chain b = l₁ ++ (d ++ l₂)) :
    (s.set (lastCell b l₁) l₂.head?).Layout n (Function.update chain b (l₁ ++ l₂)) := by
  have hsub : l₁ ⊆ chain b := hc ▸ List.subset_append_left _ _
  have hsub₂ : l₁ ++ l₂ ⊆ chain b := by
    rw [hc]
    exact (List.Sublist.append_left (List.sublist_append_right _ _) _).subset
  refine ⟨fun i hi => ?_, fun i hi g hg => ?_, ?_⟩
  · by_cases hib : i = b
    · subst hib
      rw [Function.update_self, Chain, List.map_append]
      exact hL.linked_skip hi hc (nextCell_set_self _ _ _) fun c hcne => nextCell_set_of_ne _ _ hcne
    · rw [Function.update_of_ne hib]
      refine (hL.linked i hi).congr fun c hcm => nextCell_set_of_ne _ _ ?_
      rintro rfl
      exact hL.lastCell_notMem hb hi hib hsub hcm
  · rw [(handles_set _ _ _ g).1]
    by_cases hib : i = b
    · subst hib
      rw [Function.update_self] at hg
      exact hL.index i hi g (hsub₂ hg)
    · rw [Function.update_of_ne hib] at hg
      exact hL.index i hi g hg
  · obtain ⟨rest, h₁, h₂⟩ := exists_flat_update chain hb
    have hnd := h₁.nodup_iff.mp hL.nodup
    rw [hc] at hnd
    rw [(h₂ _).nodup_iff]
    refine hnd.sublist (List.Sublist.append_right ?_ _)
    exact List.Sublist.append_left (List.sublist_append_right _ _) _

end Layout

end TableState

end PmemKv
