import Outline.Proofs.Forest.Spine

/-!
# Pre-order with levels

Pre-order alone does not tell a tree, but pre-order with the level of each node does: a node
stands below the last node in front of it that is less deep.
-/

namespace Outline.Forest

open Document

variable {f g : Forest} {id a c : NodeId} {ids : List NodeId} {level : Nat}
  {xs : List (Nat × NodeId)}

/-- Nodes on the given level, each with all that is below it, in pre-order and with levels. -/
inductive Lists (f : Forest) : Nat → List NodeId → List (Nat × NodeId) → Prop
  | nil {level : Nat} : Lists f level [] []
  | cons {level : Nat} {id : NodeId} {ids : List NodeId} {below rest : List (Nat × NodeId)}
      (hbelow : Lists f (level + 1) (f.children id) below) (hrest : Lists f level ids rest) :
      Lists f level (id :: ids) ((level, id) :: (below ++ rest))

theorem Lists.level_le (h : Lists f level ids xs) : ∀ x ∈ xs, level ≤ x.1 := by
  induction h with
  | nil => simp
  | cons _ _ ihbelow ihrest =>
    intro x hx
    rcases List.mem_cons.mp hx with rfl | hx
    · exact Nat.le_refl _
    · rcases List.mem_append.mp hx with hx | hx
      · exact Nat.le_of_succ_le (ihbelow x hx)
      · exact ihrest x hx

theorem Lists.head_level (h : Lists f level ids xs) : ∀ x ∈ xs.head?, x.1 = level := by
  cases h with
  | nil => simp
  | cons => simp

theorem Lists.map_snd (h : Lists f level ids xs) (hf : f.WellFormed) :
    xs.map (·.2) = ids.flatMap f.descendants := by
  induction h with
  | nil => rfl
  | cons _ _ ihbelow ihrest =>
    rw [List.map_cons, List.map_append, ihbelow, ihrest, List.flatMap_cons, hf.descendants_eq,
      List.cons_append]

/-- The induction goes down by the number of nodes that are listed. -/
theorem WellFormed.exists_lists (hf : f.WellFormed) (level : Nat) (ids : List NodeId) :
    ∃ xs, Lists f level ids xs := by
  obtain ⟨n, hn⟩ : ∃ n, (ids.flatMap f.descendants).length = n := ⟨_, rfl⟩
  induction n using Nat.strong_induction_on generalizing ids level with
  | _ n ih =>
    cases ids with
    | nil => exact ⟨[], .nil⟩
    | cons id ids =>
      rw [List.flatMap_cons, hf.descendants_eq, List.length_append, List.length_cons] at hn
      obtain ⟨below, hbelow⟩ := ih _ (by omega) (level + 1) (f.children id) rfl
      obtain ⟨rest, hrest⟩ := ih _ (by omega) level ids rfl
      exact ⟨_, .cons hbelow hrest⟩

/-! ## Levels -/

theorem ascend_add (f : Forest) (m n : Nat) (id : NodeId) :
    ascend f (m + n) id = (ascend f m id).bind (ascend f n) := by
  induction m generalizing id with
  | zero => rw [Nat.zero_add, ascend, Option.bind_some]
  | succ m ih =>
    rw [Nat.succ_add, ascend, ascend, Option.bind_assoc]
    congr 1
    funext p
    exact ih p

theorem within_of_ascend {n : Nat} (h : ascend f n id = some a) : f.Within id a := by
  induction n generalizing id with
  | zero =>
    obtain rfl := Option.some.inj h
    exact .refl
  | succ n ih =>
    rw [ascend, Option.bind_eq_some_iff] at h
    obtain ⟨p, hp, h⟩ := h
    exact .head hp (ih h)

theorem exists_parent_of_ascend {n : Nat} (h : ascend f (n + 1) id = some a) :
    ∃ p, f.parent id = some p := by
  rw [ascend, Option.bind_eq_some_iff] at h
  obtain ⟨p, hp, -⟩ := h
  exact ⟨p, hp⟩

theorem WellFormed.ascend_unique (hf : f.WellFormed) {m n : Nat} (hm : ascend f m id = some a)
    (hn : ascend f n id = some a) : m = n := by
  have hle : ∀ {m n}, ascend f m id = some a → ascend f n id = some a → n ≤ m := by
    intro m n hm hn
    by_contra hlt
    obtain ⟨k, rfl⟩ : ∃ k, n = m + (k + 1) := ⟨n - (m + 1), by omega⟩
    rw [ascend_add, hm, Option.bind_some, ascend, Option.bind_eq_some_iff] at hn
    obtain ⟨p, hp, hup⟩ := hn
    exact hf.not_within_child hp (within_of_ascend hup)
  exact Nat.le_antisymm (hle hn hm) (hle hm hn)

theorem Lists.ascend_eq (h : Lists f level ids xs) (hf : f.WellFormed)
    (hids : ∀ id ∈ ids, ascend f (level + 1) id = some a) :
    ∀ x ∈ xs, ascend f (x.1 + 1) x.2 = some a := by
  induction h with
  | nil => simp
  | @cons level id ids below rest _ _ ihbelow ihrest =>
    have hbelow := ihbelow fun c hc => by
      rw [ascend, hf.mem_children.mp hc, Option.bind_some]
      exact hids id (by simp)
    have hrest := ihrest fun i hi => hids i (by simp [hi])
    intro x hx
    rcases List.mem_cons.mp hx with rfl | hx
    · exact hids id (by simp)
    · rcases List.mem_append.mp hx with hx | hx
      · exact hbelow x hx
      · exact hrest x hx

theorem WellFormed.lists_children (hf : f.WellFormed)
    (hxs : f.descendants c = c :: xs.map (·.2))
    (hlevel : ∀ x ∈ xs, ascend f (x.1 + 1) x.2 = some c) : Lists f 0 (f.children c) xs := by
  obtain ⟨ys, hys⟩ := hf.exists_lists 0 (f.children c)
  have htop : ∀ id ∈ f.children c, ascend f 1 id = some c := fun id hid => by
    rw [ascend, hf.mem_children.mp hid, Option.bind_some, ascend]
  have hylevel := hys.ascend_eq hf htop
  have hsnd : ys.map (·.2) = xs.map (·.2) := by
    rw [hf.descendants_eq] at hxs
    rw [hys.map_snd hf, (List.cons.inj hxs).2]
  have heq : ys = xs := by
    clear hys hxs
    induction ys generalizing xs with
    | nil => simpa using hsnd.symm
    | cons y ys ih =>
      cases xs with
      | nil => simp at hsnd
      | cons x xs =>
        rw [List.map_cons, List.map_cons, List.cons.injEq] at hsnd
        obtain ⟨hid, htail⟩ := hsnd
        have hy := hylevel y (by simp)
        have hx := hlevel x (by simp)
        rw [← hid] at hx
        have hxy : y = x := Prod.ext (Nat.succ.inj (hf.ascend_unique hy hx)) hid
        rw [hxy, ih (fun x hx => hlevel x (by simp [hx])) (fun y hy => hylevel y (by simp [hy]))
          htail]
  exact heq ▸ hys

/-! ## Owners -/

/-- A listed node is one of the topmost, or a child of the last node in front of it that is less
deep. -/
theorem Lists.owner {pre post : List (Nat × NodeId)} {x : Nat × NodeId}
    (h : Lists f level ids (pre ++ x :: post)) :
    (x.1 = level ∧ x.2 ∈ ids) ∨
      ∃ o, (pre.filter (·.1 < x.1)).getLast? = some o ∧ x.2 ∈ f.children o.2 := by
  generalize hxs : pre ++ x :: post = xs at h
  induction h generalizing pre post with
  | nil => simp at hxs
  | @cons level id ids below rest hbelow _ ihbelow ihrest =>
    cases pre with
    | nil =>
      obtain ⟨rfl, -⟩ := List.cons.inj hxs
      exact .inl ⟨rfl, by simp⟩
    | cons y pre =>
      obtain ⟨rfl, hsplit⟩ := List.cons.inj hxs
      have hbehind : ∀ {o : Nat × NodeId}, (pre.filter (·.1 < x.1)).getLast? = some o →
          (((level, id) :: pre).filter (·.1 < x.1)).getLast? = some o := by
        intro o ho
        rw [List.filter_cons]
        split
        · rw [List.getLast?_cons, ho]
          rfl
        · exact ho
      rcases List.append_eq_append_iff.mp hsplit with ⟨mid, hmid, htail⟩ | ⟨mid, hmid, htail⟩
      · -- The node is below this one, or its list starts right behind.
        cases mid with
        | nil =>
          rw [List.append_nil] at hmid
          rcases @ihrest [] _ htail with ⟨hlevel, hmem⟩ | ⟨o, ho, -⟩
          · exact .inl ⟨hlevel, by simp [hmem]⟩
          · simp at ho
        | cons z mid =>
          obtain ⟨rfl, rfl⟩ := List.cons.inj htail
          rcases ihbelow hmid.symm with ⟨hlevel, hmem⟩ | ⟨o, ho, hmem⟩
          · refine .inr ⟨(level, id), ?_, hmem⟩
            have hnone : pre.filter (·.1 < x.1) = [] := by
              refine List.filter_eq_nil_iff.mpr fun y hy => ?_
              have hle := hbelow.level_le y (by rw [hmid]; simp [hy])
              simp only [decide_eq_true_eq]
              omega
            rw [List.filter_cons_of_pos (by simp [hlevel]), hnone]
            rfl
          · exact .inr ⟨o, hbehind ho, hmem⟩
      · -- The node stands behind all that is below this one.
        rcases ihrest htail.symm with ⟨hlevel, hmem⟩ | ⟨o, ho, hmem⟩
        · exact .inl ⟨hlevel, by simp [hmem]⟩
        · refine .inr ⟨o, hbehind ?_, hmem⟩
          rw [hmid, List.filter_append, List.getLast?_append, ho]
          rfl

/-! ## Pruning -/

/-- Detach some nodes, each with all that is below it. -/
def prune (f : Forest) (gone : List NodeId) : Forest := gone.foldl untie f

variable {gone : List NodeId}

@[simp] theorem size_prune (f : Forest) (gone : List NodeId) : (f.prune gone).size = f.size := by
  induction gone generalizing f with
  | nil => rfl
  | cons id gone ih => exact (ih (f.untie id)).trans (size_untie f id)

@[simp] theorem name_prune (f : Forest) (gone : List NodeId) (i : NodeId) :
    (f.prune gone).name i = f.name i := by
  induction gone generalizing f with
  | nil => rfl
  | cons id gone ih => exact (ih (f.untie id)).trans (name_untie f id i)

@[simp] theorem value_prune (f : Forest) (gone : List NodeId) (i : NodeId) :
    (f.prune gone).value i = f.value i := by
  induction gone generalizing f with
  | nil => rfl
  | cons id gone ih => exact (ih (f.untie id)).trans (value_untie f id i)

theorem WellFormed.children_prune (hf : f.WellFormed) (gone : List NodeId) (q : NodeId) :
    (f.prune gone).children q = (f.children q).filter (· ∉ gone) := by
  induction gone generalizing f with
  | nil =>
    rw [prune, List.foldl_nil]
    simp
  | cons id gone ih =>
    refine (ih (hf.untie id)).trans ?_
    rw [hf.children_untie, List.filter_filter]
    refine List.filter_congr fun i _ => ?_
    simp only [List.mem_cons, not_or]
    by_cases hi : i = id <;> simp [hi]

/-- If all topmost nodes are pruned, and with each node its children, then all nodes are. -/
theorem Lists.mem_gone (h : Lists f level ids xs) (hids : ∀ id ∈ ids, id ∈ gone)
    (hgone : ∀ x ∈ xs, x.2 ∈ gone → ∀ c ∈ f.children x.2, c ∈ gone) : ∀ x ∈ xs, x.2 ∈ gone := by
  induction h with
  | nil => simp
  | @cons level id ids below rest _ _ ihbelow ihrest =>
    have hid := hids id (by simp)
    have hbelow := ihbelow (hgone (level, id) (by simp) hid) fun x hx => hgone x (by simp [hx])
    have hrest := ihrest (fun i hi => hids i (by simp [hi])) fun x hx => hgone x (by simp [hx])
    intro x hx
    rcases List.mem_cons.mp hx with rfl | hx
    · exact hid
    · rcases List.mem_append.mp hx with hx | hx
      · exact hbelow x hx
      · exact hrest x hx

theorem Lists.prune (h : Lists f level ids xs) (hf : f.WellFormed) (gone : List NodeId)
    (hgone : ∀ x ∈ xs, x.2 ∈ gone → ∀ c ∈ f.children x.2, c ∈ gone) :
    Lists (f.prune gone) level (ids.filter (· ∉ gone)) (xs.filter (·.2 ∉ gone)) := by
  induction h with
  | nil => exact .nil
  | @cons level id ids below rest hbelow _ ihbelow ihrest =>
    have hclosed : ∀ x ∈ below, x.2 ∈ gone → ∀ c ∈ f.children x.2, c ∈ gone := fun x hx =>
      hgone x (by simp [hx])
    have hrest := ihrest fun x hx => hgone x (by simp [hx])
    by_cases hid : id ∈ gone
    · have hnone : below.filter (·.2 ∉ gone) = [] := by
        refine List.filter_eq_nil_iff.mpr fun x hx => ?_
        have hmem := hbelow.mem_gone (hgone (level, id) (by simp) hid) hclosed x hx
        simpa using hmem
      rw [List.filter_cons_of_neg (by simpa using hid),
        List.filter_cons_of_neg (by simpa using hid),
        List.filter_append, hnone]
      exact hrest
    · have hnext := ihbelow hclosed
      rw [← hf.children_prune gone id] at hnext
      rw [List.filter_cons_of_pos (by simpa using hid),
        List.filter_cons_of_pos (by simpa using hid),
        List.filter_append]
      exact .cons hnext hrest

end Outline.Forest
