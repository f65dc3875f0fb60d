import Outline.Proofs.Forest.Edit
import Outline.Proofs.Forest.Spine

/-!
# Moves

What the edits that move a node do, said in lists of children. The list that the node leaves may
be the one that it goes to; so its new place is told by its neighbours in that list without it,
and not by a number.
-/

namespace Outline.Forest

variable {f g : Forest} {n p t : NodeId} {up : Option NodeId} {lists : NodeId → List NodeId}

/-- The children of a node, `n` left out. -/
def others (f : Forest) (n id : NodeId) : List NodeId := (f.children id).filter (· != n)

/-- In `g` the node `n` stands below `up`, and the lists of children are `lists`. Everything else is
as in `f`. -/
structure Moved (f g : Forest) (n : NodeId) (up : Option NodeId) (lists : NodeId → List NodeId) :
    Prop where
  size : g.size = f.size
  name : ∀ i, g.name i = f.name i
  value : ∀ i, g.value i = f.value i
  parent_self : g.parent n = up
  parent : ∀ i, i ≠ n → g.parent i = f.parent i
  children_self : g.children n = f.children n
  children : ∀ i, g.children i = lists i

theorem WellFormed.others_of_within (hf : f.WellFormed) {x : NodeId} (hx : f.Within x n) :
    f.others n x = f.children x := by
  refine List.filter_eq_self.mpr fun i hi => ?_
  have hne : i ≠ n := by
    rintro rfl
    exact hf.not_within_child (hf.mem_children.mp hi) hx
  simpa using hne

theorem Moved.descendants (h : Moved f g n up lists) (hf : f.WellFormed) (hg : g.WellFormed)
    (hlists : ∀ x, f.Within x n → lists x = f.others n x) :
    g.descendants n = f.descendants n :=
  hf.descendants_congr hg fun x hx => by
    rw [h.children, hlists x hx, hf.others_of_within hx]

theorem others_update (hw : ¬ f.Within p n) (l : List NodeId) (x : NodeId) (hx : f.Within x n) :
    Function.update (f.others n) p l x = f.others n x := by
  refine Function.update_of_ne ?_ _ _
  rintro rfl
  exact hw hx

/-! ## Letting go and putting in -/

theorem WellFormed.moved_untie (hf : f.WellFormed) (n : NodeId) :
    Moved f (f.untie n) n none (f.others n) where
  size := size_untie f n
  name := name_untie f n
  value := value_untie f n
  parent_self := by rw [parent_untie, if_pos rfl]
  parent i hi := by rw [parent_untie, if_neg hi]
  children_self := (hf.children_untie n n).trans (hf.others_of_within .refl)
  children := hf.children_untie n

theorem Moved.put (h : Moved f g n none lists) (hn : n < f.size) (hp : p < f.size) (hne : n ≠ p)
    (edit : List NodeId → List NodeId) :
    Moved f ((g.modify p fun s => { s with children := edit s.children }).setParent n (some p)) n
      (some p) (Function.update lists p (edit (lists p))) where
  size := by rw [size_setParent, size_modify, h.size]
  name i := by simp [setParent, name_modify, h.name]
  value i := by simp [setParent, value_modify, h.value]
  parent_self := by rw [parent_setParent, if_pos ⟨rfl, by rwa [size_modify, h.size]⟩]
  parent i hi := by
    rw [parent_setParent, if_neg fun hin => hi hin.1, ← h.parent i hi, Forest.parent, slot_modify]
    split <;> rfl
  children_self := by
    rw [children_setParent, Forest.children, slot_of_ne _ _ _ hne]
    exact h.children_self
  children i := by
    rw [children_setParent, Forest.children]
    by_cases hi : i = p
    · subst hi
      rw [slot_modify, if_pos ⟨rfl, by rwa [h.size]⟩, Function.update_self, ← h.children]
      rfl
    · rw [slot_of_ne _ _ _ hi, Function.update_of_ne hi]
      exact h.children i

/-! ## Beside a sibling -/

theorem exists_split {l : List NodeId} {i : Nat} (h : l[i]? = some t) (n : NodeId) :
    ∃ before after, l = before ++ t :: after ∧
      l.insertIdx (i + 0) n = before ++ n :: t :: after ∧
      l.insertIdx (i + 1) n = before ++ t :: n :: after := by
  obtain ⟨hlt, rfl⟩ := List.getElem?_eq_some_iff.mp h
  have hsplit : l = l.take i ++ l[i] :: l.drop (i + 1) := by
    rw [← List.drop_eq_getElem_cons hlt, List.take_append_drop]
  have hlen : (l.take i).length = i := by
    rw [List.length_take]
    omega
  have hinsert : ∀ offset, l.insertIdx (i + offset) n =
      l.take i ++ (l[i] :: l.drop (i + 1)).insertIdx offset n := by
    intro offset
    have hplace := List.modifyTailIdx_add (List.cons n) offset (l.take i) (l[i] :: l.drop (i + 1))
    rwa [← hsplit, hlen] at hplace
  exact ⟨l.take i, l.drop (i + 1), hsplit, hinsert 0, hinsert 1⟩

theorem WellFormed.moved_insert (hf : f.WellFormed) (hn : n < f.size) (hp : f.parent t = some p)
    (hw : ¬ f.Within t n) :
    ∃ before after, f.others n p = before ++ t :: after ∧
      Moved f (f.insertBefore t n) n (some p)
        (Function.update (f.others n) p (before ++ n :: t :: after)) ∧
      Moved f (f.insertAfter t n) n (some p)
        (Function.update (f.others n) p (before ++ t :: n :: after)) := by
  have hne : n ≠ p := by
    rintro rfl
    exact hw (.single hp)
  obtain ⟨i, hi, hsplice⟩ := hf.splice_eq hp hw
  obtain ⟨before, after, hsplit, hzero, hone⟩ := exists_split hi n
  have hput : ∀ offset, Moved f (f.splice t n offset) n (some p)
      (Function.update (f.others n) p ((f.others n p).insertIdx (i + offset) n)) := by
    intro offset
    rw [hsplice]
    exact (hf.moved_untie n).put hn (hf.parent_lt hp) hne fun l => l.insertIdx (i + offset) n
  exact ⟨before, after, hsplit, hzero ▸ hput 0, hone ▸ hput 1⟩

theorem WellFormed.moved_add (hf : f.WellFormed) (hn : n < f.size) (hp : p < f.size)
    (hw : ¬ f.Within p n) :
    Moved f (f.add p n) n (some p) (Function.update (f.others n) p (f.others n p ++ [n])) := by
  have hne : n ≠ p := by
    rintro rfl
    exact hw .refl
  rw [add_of_not_within hf hw]
  exact (hf.moved_untie n).put hn hp hne fun l => l ++ [n]

/-! ## All moves -/

/-- A node is not moved below itself. Any other move takes it out of the list that it stands in:
`add` puts it at the end of the list of its new parent, the insertions put it next to a sibling in
the list of their parent, and beside a free node it stays free. Names, values and all other links
stay, and the tree below the node comes along. -/
theorem move_exact (hf : f.WellFormed) (hn : n < f.size) (ht : t < f.size) :
    (f.Within t n → f.add t n = f ∧ f.insertBefore t n = f ∧ f.insertAfter t n = f) ∧
      (¬ f.Within t n →
        Moved f (f.add t n) n (some t) (Function.update (f.others n) t (f.others n t ++ [n])) ∧
        (f.parent t = none →
          Moved f (f.insertBefore t n) n none (f.others n) ∧
          Moved f (f.insertAfter t n) n none (f.others n)) ∧
        ∀ p, f.parent t = some p → ∃ before after, f.others n p = before ++ t :: after ∧
          Moved f (f.insertBefore t n) n (some p)
            (Function.update (f.others n) p (before ++ n :: t :: after)) ∧
          Moved f (f.insertAfter t n) n (some p)
            (Function.update (f.others n) p (before ++ t :: n :: after))) ∧
      (f.add t n).descendants n = f.descendants n ∧
      (f.insertBefore t n).descendants n = f.descendants n ∧
      (f.insertAfter t n).descendants n = f.descendants n := by
  by_cases hw : f.Within t n
  · -- Refused: all three leave the forest as it is.
    have hadd : f.add t n = f := if_pos (hf.isWithin_iff.mpr hw)
    have hsplice : ∀ offset, f.splice t n offset = f := fun _ => if_pos (hf.isWithin_iff.mpr hw)
    have hbefore : f.insertBefore t n = f := hsplice 0
    have hafter : f.insertAfter t n = f := hsplice 1
    exact ⟨fun _ => ⟨hadd, hbefore, hafter⟩, fun h => absurd hw h, by rw [hadd], by rw [hbefore],
      by rw [hafter]⟩
  have hadd := hf.moved_add hn ht hw
  have hbelow : (f.add t n).descendants n = f.descendants n :=
    hadd.descendants hf (hf.add ht hn) (others_update hw _)
  have hwf : ∀ offset ≤ 1, (f.splice t n offset).WellFormed := fun _ ho => hf.splice hn ho
  cases hp : f.parent t with
  | none =>
    have hfree : ∀ offset, Moved f (f.splice t n offset) n none (f.others n) := by
      intro offset
      rw [hf.splice_of_parent_none hp hw]
      exact hf.moved_untie n
    have hkept : ∀ offset ≤ 1, (f.splice t n offset).descendants n = f.descendants n :=
      fun offset ho => (hfree offset).descendants hf (hwf offset ho) fun _ _ => rfl
    exact ⟨fun h => absurd h hw, fun _ => ⟨hadd, fun _ => ⟨hfree 0, hfree 1⟩, nofun⟩,
      hbelow, hkept 0 (by omega), hkept 1 (by omega)⟩
  | some p =>
    have hwp : ¬ f.Within p n := fun h => hw (.head hp h)
    obtain ⟨before, after, -, hbefore, hafter⟩ := hf.moved_insert hn hp hw
    refine ⟨fun h => absurd h hw, fun _ => ⟨hadd, nofun, fun q hq => ?_⟩, hbelow,
      hbefore.descendants hf (hwf 0 (by omega)) (others_update hwp _),
      hafter.descendants hf (hwf 1 (by omega)) (others_update hwp _)⟩
    obtain rfl := Option.some.inj hq
    exact hf.moved_insert hn hp hw

/-- A first child is put behind its last sibling, and then in front of the only other one. -/
theorem move_exact_siblings :
    let f := (((((empty.create "a" none).2.create "b" none).2.create "c" none).2.add root 1).add
      root 2).add root 3
    f.WellFormed ∧ f.children root = [1, 2, 3] ∧ f.others 1 root = [2, 3] ∧
      Moved f (f.insertAfter 3 1) 1 (some root) (Function.update (f.others 1) root [2, 3, 1]) ∧
      Moved f (f.insertBefore 3 1) 1 (some root) (Function.update (f.others 1) root [2, 1, 3]) ∧
      f.add 1 root = f := by
  intro f
  have hf : f.WellFormed := by
    refine (Edited.extends ?_ wellFormed_empty).1
    exact (((((Edited.create empty "a" none).trans (.create _ "b" none)).trans
      (.create _ "c" none)).trans (.add (by decide) (by decide))).trans
      (.add (by decide) (by decide))).trans (.add (by decide) (by decide))
  have hothers : f.others 1 root = [2, 3] := by decide
  have hw : ¬ f.Within 3 1 := hf.isWithin_iff.not.mp (by decide)
  obtain ⟨-, -, hinsert⟩ := (move_exact hf (n := 1) (t := 3) (by decide) (by decide)).2.1 hw
  obtain ⟨before, after, hsplit, hbefore, hafter⟩ := hinsert root (by decide)
  have hplace : before = [2] ∧ after = [] := by
    rw [hothers] at hsplit
    rcases before with _ | ⟨b, _ | ⟨b', before⟩⟩ <;> simp_all
  obtain ⟨rfl, rfl⟩ := hplace
  have hup := (move_exact hf (n := root) (t := 1) (by decide) (by decide)).1
    (hf.isWithin_iff.mp (by decide))
  exact ⟨hf, by decide, hothers, hafter, hbefore, hup.1⟩

end Outline.Forest
