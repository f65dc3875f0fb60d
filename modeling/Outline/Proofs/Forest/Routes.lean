import Mathlib.Data.List.Induction
import Mathlib.Data.List.Nodup
import Mathlib.Data.List.Perm.Basic
import Outline.Proofs.Forest.Growth

/-!
# Routes

A turn leads from a node to one of its children or into the nested tree that is its value, and
a route is a row of turns. Reading adds nodes in such a way that every new node is on a route
from one of the new topmost nodes, and no two turns lead to the same node.
-/

namespace Outline

/-- The container of a nested tree. -/
def Value.container? : Value → Option NodeId
  | .node container => some container
  | _ => none

theorem Value.container?_eq_some {v : Value} {c : NodeId} :
    v.container? = some c ↔ v = .node c := by
  cases v <;> simp [Value.container?]

def Value.tops (v : Value) : List NodeId := v.container?.toList

namespace Forest

/-- Where a route may go on at a node. -/
inductive Turn
  | child (place : Nat)
  | inside
  deriving DecidableEq, Repr

def turn (f : Forest) (id : NodeId) : Turn → Option NodeId
  | .child place => (f.children id)[place]?
  | .inside => (f.value id).bind Value.container?

def follow (f : Forest) : NodeId → List Turn → Option NodeId
  | id, [] => some id
  | id, t :: route => (f.turn id t).bind fun next => f.follow next route

variable {f g h : Forest} {a b c id q : NodeId} {t : Turn} {route route' : List Turn}
  {tops tops' new : List NodeId} {low : Nat}

theorem follow_append (f : Forest) (a : NodeId) (route route' : List Turn) :
    f.follow a (route ++ route') = (f.follow a route).bind fun b => f.follow b route' := by
  induction route generalizing a with
  | nil => rfl
  | cons t route ih =>
    simp only [List.cons_append, follow]
    cases f.turn a t with
    | none => rfl
    | some b => exact ih b

theorem follow_concat (f : Forest) (a : NodeId) (route : List Turn) (t : Turn) :
    f.follow a (route ++ [t]) = (f.follow a route).bind fun b => f.turn b t := by
  rw [follow_append]
  congr 1
  funext b
  simp [follow]

theorem turn_inside : f.turn a .inside = some c ↔ f.value a = some (.node c) := by
  simp [turn, Option.bind_eq_some_iff, Value.container?_eq_some]

theorem exists_turn_of_mem_children (h : b ∈ f.children a) :
    ∃ place, f.turn a (.child place) = some b :=
  List.mem_iff_getElem?.mp h

theorem turn_congr (hc : g.children a = f.children a) (hv : g.value a = f.value a) (t : Turn) :
    g.turn a t = f.turn a t := by
  cases t with
  | child place => rw [turn, turn, hc]
  | inside => rw [turn, turn, hv]

theorem turn_of_size_le (ha : f.size ≤ a) (t : Turn) : f.turn a t = none := by
  cases t with
  | child place => simp [turn, children_of_size_le ha]
  | inside => simp [turn, value_of_size_le ha]

theorem turn_empty (a : NodeId) (t : Turn) : empty.turn a t = none := by
  have hbare : empty.slot a = {} := by cases a <;> rfl
  cases t with
  | child place => simp [turn, children, hbare]
  | inside => simp [turn, value, hbare]

theorem follow_mono {P : NodeId → Prop}
    (hstep : ∀ {a t b}, P a → f.turn a t = some b → g.turn a t = some b ∧ P b) (ha : P a)
    (hr : f.follow a route = some b) : g.follow a route = some b := by
  induction route generalizing a with
  | nil => exact hr
  | cons t route ih =>
    rw [follow, Option.bind_eq_some_iff] at hr
    obtain ⟨c, hc, hr⟩ := hr
    obtain ⟨hturn, hpc⟩ := hstep ha hc
    rw [follow, hturn]
    exact ih hpc hr

theorem Grown.turn_eq (hg : Grown f g q []) (ha : a < f.size) (t : Turn) :
    g.turn a t = f.turn a t :=
  turn_congr (by simpa using hg.children a ha) (hg.value a ha) t

/-! ## Turns behind a change -/

theorem WellFormed.filter_children_of_parent_none (hf : f.WellFormed) (hb : f.parent b = none)
    (a : NodeId) : (f.children a).filter (· != b) = f.children a := by
  refine List.filter_eq_self.mpr fun i hi => ?_
  have hne : i ≠ b := by
    rintro rfl
    rw [hf.mem_children.mp hi] at hb
    cases hb
  simpa using hne

theorem WellFormed.turn_add (hf : f.WellFormed) (ha : a < f.size) (hb : f.parent b = none)
    (hw : ¬ f.Within a b) (a' : NodeId) (t : Turn) :
    (f.add a b).turn a' t =
      if a' = a ∧ t = .child (f.children a).length then some b else f.turn a' t := by
  cases t with
  | inside => simp [turn]
  | child place =>
    simp only [turn, children_add hf ha hw, hf.filter_children_of_parent_none hb, Turn.child.injEq]
    by_cases ha' : a' = a
    · rw [if_pos ha', ha', List.getElem?_append]
      by_cases hp : place < (f.children a).length
      · simp [hp, Nat.ne_of_lt hp]
      · by_cases heq : place = (f.children a).length
        · simp [heq]
        · simp [hp, heq]
          omega
    · simp [ha']

theorem turn_setValue (ha : a < f.size) (v : Value) (a' : NodeId) (t : Turn) :
    (f.setValue a (some v)).turn a' t =
      if a' = a ∧ t = .inside then v.container? else f.turn a' t := by
  cases t with
  | child place => simp [turn]
  | inside =>
    simp only [turn, value_setValue, and_true]
    by_cases h : a' = a
    · subst h
      simp [ha]
    · simp [h]

theorem turn_create (f : Forest) (n : String) (v : Option Value) (a : NodeId) (t : Turn) :
    (f.create n v).2.turn a t =
      if a = f.size ∧ t = .inside then v.bind Value.container? else f.turn a t := by
  cases t with
  | child place => simp [turn]
  | inside =>
    simp only [turn, value_create, and_true]
    split <;> rfl

/-! ## Added nodes -/

/-- From `f` to `g` nodes are added. No turn leads to one of `tops`, no two turns lead to the
same new node, and every new node is on a route from one of `tops`. -/
structure Adds (f g : Forest) (tops : List NodeId) : Prop where
  grown : Grown f g root []
  stays : ∀ {a b : Nat} {t}, f.size ≤ a → g.turn a t = some b → f.size ≤ b ∧ b < g.size
  unique : ∀ {a a' b : Nat} {t t'}, f.size ≤ a → f.size ≤ a' → g.turn a t = some b →
    g.turn a' t' = some b → a = a' ∧ t = t'
  nodup : tops.Nodup
  fresh : ∀ {b : Nat}, b ∈ tops → f.size ≤ b ∧ b < g.size
  free : ∀ {a b : Nat} {t}, b ∈ tops → f.size ≤ a → g.turn a t ≠ some b
  reached : ∀ i, f.size ≤ i → i < g.size → ∃ b ∈ tops, ∃ route, g.follow b route = some i

theorem Adds.refl (hf : f.WellFormed) : Adds f f [] where
  grown := .refl hf root
  stays ha h := by rw [turn_of_size_le ha] at h; cases h
  unique ha _ h := by rw [turn_of_size_le ha] at h; cases h
  nodup := .nil
  fresh hb := by cases hb
  free hb := by cases hb
  reached i hi hlt := absurd hlt (Nat.not_lt.mpr hi)

theorem Adds.create (hf : f.WellFormed) (n : String) {v : Option Value}
    (hv : v.bind Value.container? = none) : Adds f (f.create n v).2 [f.size] := by
  have hnone : ∀ {a t}, f.size ≤ a → (f.create n v).2.turn a t = none := by
    intro a t ha
    rw [turn_create, hv, turn_of_size_le ha, ite_self]
  exact {
    grown := .create hf root n v
    stays := fun ha h => by rw [hnone ha] at h; cases h
    unique := fun ha _ h => by rw [hnone ha] at h; cases h
    nodup := by simp
    fresh := fun hb => by
      obtain rfl := List.mem_singleton.mp hb
      simp
    free := fun _ ha h => by rw [hnone ha] at h; cases h
    reached := fun i hi hlt => by
      obtain rfl : i = f.size := by
        rw [size_create] at hlt
        omega
      exact ⟨f.size, by simp, [], rfl⟩ }

theorem adds_empty : Adds ⟨#[]⟩ empty [root] where
  grown := {
    wf := wellFormed_empty
    size_le := Nat.zero_le _
    name := fun i hi => absurd hi (Nat.not_lt_zero i)
    value := fun i hi => absurd hi (Nat.not_lt_zero i)
    parent := fun i hi => absurd hi (Nat.not_lt_zero i)
    children := fun i hi => absurd hi (Nat.not_lt_zero i) }
  stays _ h := by rw [turn_empty] at h; cases h
  unique _ _ h := by rw [turn_empty] at h; cases h
  nodup := by simp
  fresh hb := by
    obtain rfl := List.mem_singleton.mp hb
    exact ⟨Nat.zero_le _, Nat.zero_lt_one⟩
  free _ _ h := by rw [turn_empty] at h; cases h
  reached i _ hlt := by
    obtain rfl : i = root := Nat.lt_one_iff.mp hlt
    exact ⟨root, by simp, [], rfl⟩

theorem Adds.reached_of_grown (hg : Adds f g tops) (hh : Grown g h q []) {i : NodeId}
    (hi : f.size ≤ i) (hlt : i < g.size) : ∃ b ∈ tops, ∃ route, h.follow b route = some i := by
  obtain ⟨b, hb, route, hroute⟩ := hg.reached i hi hlt
  refine ⟨b, hb, route, follow_mono (P := fun x => f.size ≤ x ∧ x < g.size) (fun hx hxy => ?_)
    (hg.fresh hb) hroute⟩
  exact ⟨by rw [hh.turn_eq hx.2, hxy], hg.stays hx.1 hxy⟩

theorem Adds.trans (hg : Adds f g tops) (hh : Adds g h tops') : Adds f h (tops ++ tops') := by
  have hsplit : ∀ {a b : Nat} {t}, f.size ≤ a → h.turn a t = some b →
      (a < g.size ∧ g.turn a t = some b ∧ f.size ≤ b ∧ b < g.size) ∨
        (g.size ≤ a ∧ g.size ≤ b ∧ b < h.size) := by
    intro a b t ha hab
    rcases Nat.lt_or_ge a g.size with hlt | hge
    · rw [hh.grown.turn_eq hlt] at hab
      exact .inl ⟨hlt, hab, hg.stays ha hab⟩
    · exact .inr ⟨hge, hh.stays hge hab⟩
  have hsize := hg.grown.size_le
  have hsize' := hh.grown.size_le
  exact {
    grown := hg.grown.trans hh.grown
    stays := fun ha hab => by
      rcases hsplit ha hab with ⟨-, -, hb, hlt⟩ | ⟨-, hb, hlt⟩ <;> omega
    unique := fun ha ha' hab hab' => by
      rcases hsplit ha hab with ⟨-, hab₁, -, hlt⟩ | ⟨hge, hb, -⟩ <;>
        rcases hsplit ha' hab' with ⟨-, hab₂, -, hlt'⟩ | ⟨hge', hb', -⟩
      · exact hg.unique ha ha' hab₁ hab₂
      · omega
      · omega
      · exact hh.unique hge hge' hab hab'
    nodup := by
      refine List.nodup_append.mpr ⟨hg.nodup, hh.nodup, fun b hb b' hb' heq => ?_⟩
      exact Nat.not_le.mpr (hg.fresh hb).2 (heq ▸ (hh.fresh hb').1)
    fresh := fun hb => by
      rcases List.mem_append.mp hb with hb | hb
      · have hlt := hg.fresh hb
        omega
      · have hlt := hh.fresh hb
        omega
    free := fun hb ha hab => by
      rcases hsplit ha hab with ⟨-, hab₁, -, hlt⟩ | ⟨hge, hle, -⟩ <;>
        rcases List.mem_append.mp hb with hb | hb
      · exact hg.free hb ha hab₁
      · have hle := (hh.fresh hb).1
        omega
      · have hlt := (hg.fresh hb).2
        omega
      · exact hh.free hb hge hab
    reached := fun i hi hlt => by
      rcases Nat.lt_or_ge i g.size with hig | hig
      · obtain ⟨b, hb, hroute⟩ := hg.reached_of_grown hh.grown hi hig
        exact ⟨b, List.mem_append_left _ hb, hroute⟩
      · obtain ⟨b, hb, hroute⟩ := hh.reached i hig hlt
        exact ⟨b, List.mem_append_right _ hb, hroute⟩ }

theorem Adds.keep (hg : Adds f g tops) (hh : Grown f h root []) (hsize : h.size = g.size)
    (hturn : ∀ {a t}, f.size ≤ a → h.turn a t = g.turn a t) : Adds f h tops where
  grown := hh
  stays ha hab := by
    rw [hsize]
    exact hg.stays ha (hturn ha ▸ hab)
  unique ha ha' hab hab' := hg.unique ha ha' (hturn ha ▸ hab) (hturn ha' ▸ hab')
  nodup := hg.nodup
  fresh hb := by
    rw [hsize]
    exact hg.fresh hb
  free hb ha hab := hg.free hb ha (hturn ha ▸ hab)
  reached i hi hlt := by
    obtain ⟨b, hb, route, hroute⟩ := hg.reached i hi (hsize ▸ hlt)
    refine ⟨b, hb, route, follow_mono (P := (f.size ≤ ·)) (fun hx hxy => ?_) (hg.fresh hb).1 hroute⟩
    exact ⟨by rw [hturn hx, hxy], (hg.stays hx hxy).1⟩

/-- A new turn leads to a topmost node, from a node that is reached without it. -/
theorem Adds.link (hg : Adds f g tops) (hperm : tops.Perm (b :: tops')) (hh : Grown f h root [])
    (hsize : h.size = g.size) (ha : f.size ≤ a) (hnone : g.turn a t = none)
    (hturn : ∀ {a' t'}, f.size ≤ a' →
      h.turn a' t' = if a' = a ∧ t' = t then some b else g.turn a' t')
    (hroute : ∃ top ∈ tops', ∃ route, g.follow top route = some a) : Adds f h tops' := by
  have hb : b ∈ tops := hperm.mem_iff.mpr (by simp)
  have hsub : ∀ {x}, x ∈ tops' → x ∈ tops := fun hx => hperm.mem_iff.mpr (by simp [hx])
  obtain ⟨hnot, hnodup⟩ := List.nodup_cons.mp (hperm.nodup_iff.mp hg.nodup)
  have hmono : ∀ {x s y}, f.size ≤ x → g.turn x s = some y → h.turn x s = some y ∧ f.size ≤ y := by
    intro x s y hx hxy
    have hne : ¬(x = a ∧ s = t) := by
      rintro ⟨rfl, rfl⟩
      rw [hnone] at hxy
      cases hxy
    rw [hturn hx, if_neg hne]
    exact ⟨hxy, (hg.stays hx hxy).1⟩
  have hinv : ∀ {x s y}, f.size ≤ x → h.turn x s = some y →
      (x = a ∧ s = t ∧ y = b) ∨ g.turn x s = some y := by
    intro x s y hx hxy
    rw [hturn hx] at hxy
    split at hxy
    · rename_i heq
      exact .inl ⟨heq.1, heq.2, (Option.some.inj hxy).symm⟩
    · exact .inr hxy
  exact {
    grown := hh
    stays := fun hx hxy => by
      rw [hsize]
      rcases hinv hx hxy with ⟨-, -, rfl⟩ | hxy
      · exact hg.fresh hb
      · exact hg.stays hx hxy
    unique := fun hx hx' hxy hxy' => by
      rcases hinv hx hxy with ⟨rfl, rfl, rfl⟩ | hxy <;>
        rcases hinv hx' hxy' with ⟨rfl, rfl, heq⟩ | hxy'
      · exact ⟨rfl, rfl⟩
      · exact absurd hxy' (hg.free hb hx')
      · exact absurd (heq ▸ hxy) (hg.free hb hx)
      · exact hg.unique hx hx' hxy hxy'
    nodup := hnodup
    fresh := fun hx => by
      rw [hsize]
      exact hg.fresh (hsub hx)
    free := fun hy hx hxy => by
      rcases hinv hx hxy with ⟨-, -, rfl⟩ | hxy
      · exact hnot hy
      · exact hg.free (hsub hy) hx hxy
    reached := fun i hi hlt => by
      obtain ⟨x, hx, route, hr⟩ := hg.reached i hi (hsize ▸ hlt)
      have hr' := follow_mono hmono (hg.fresh hx).1 hr
      rcases List.mem_cons.mp (hperm.mem_iff.mp hx) with rfl | hx
      · -- What was reached from the topmost node is reached through the new turn.
        obtain ⟨top, htop, way, hway⟩ := hroute
        refine ⟨top, htop, way ++ t :: route, ?_⟩
        rw [follow_append, follow_mono hmono (hg.fresh (hsub htop)).1 hway, Option.bind_some,
          follow, hturn ha, if_pos ⟨rfl, rfl⟩]
        exact hr'
      · exact ⟨x, hx, route, hr'⟩ }

theorem Grown.hang (hg : Grown f g q []) (halt : a < g.size) (hb : f.size ≤ b) (hblt : b < g.size)
    (hparent : g.parent b = none) (hw : ¬ g.Within a b) : Grown f (g.add a b) a [b] where
  wf := hg.wf.add halt hblt
  size_le := by simpa using hg.size_le
  name i hi := by simpa using hg.name i hi
  value i hi := by simpa using hg.value i hi
  parent i hi := by
    rw [parent_add hg.wf hblt hw, if_neg (Nat.ne_of_lt (Nat.lt_of_lt_of_le hi hb)), hg.parent i hi]
  children i hi := by
    rw [children_add hg.wf halt hw, hg.wf.filter_children_of_parent_none hparent,
      hg.children i hi, ite_self, List.append_nil]

theorem Adds.parent_eq_none (hg : Adds f g [b]) (hf : f.WellFormed) : g.parent b = none := by
  cases hp : g.parent b with
  | none => rfl
  | some p =>
    have hmem := hg.grown.wf.mem_children.mpr hp
    rcases Nat.lt_or_ge p f.size with hlt | hge
    · have hold : g.children p = f.children p := by simpa using hg.grown.children p hlt
      rw [hold] at hmem
      exact absurd (hf.child_lt hmem) (Nat.not_lt.mpr (hg.fresh (by simp)).1)
    · obtain ⟨place, hturn⟩ := exists_turn_of_mem_children hmem
      exact absurd hturn (hg.free (by simp) hge)

theorem Grown.not_within (hg : Grown f g q new) (hf : f.WellFormed) (ha : a < f.size)
    (hb : f.size ≤ b) : ¬ g.Within a b := by
  intro hw
  have hold : ∀ {x}, g.Within a x → x < f.size := by
    intro x hx
    induction hx with
    | refl => exact ha
    | tail _ hp ih =>
      rw [hg.parent _ ih] at hp
      exact hf.parent_lt hp
  exact absurd (hold hw) (Nat.not_lt.mpr hb)

theorem Adds.hang (hg : Adds f g tops) (hh : Adds g h [b]) (ha : f.size ≤ a) (halt : a < g.size) :
    Adds f (h.add a b) tops := by
  obtain ⟨hb, hblt⟩ := hh.fresh (b := b) (by simp)
  have hparent := hh.parent_eq_none hg.grown.wf
  have hw := hh.grown.not_within hg.grown.wf halt hb
  have hgh := hg.trans hh
  have halt' := Nat.lt_of_lt_of_le halt hh.grown.size_le
  have hgrown := hgh.grown.hang halt' (hg.grown.size_le.trans hb) hblt hparent hw
  exact hgh.link (t := .child (h.children a).length) List.perm_append_comm
    (hgrown.detached (.inr ha) root) (by simp) ha (by simp [turn])
    (fun _ => hh.grown.wf.turn_add halt' hparent hw _ _) (hg.reached_of_grown hh.grown ha halt)

theorem Adds.hold {v : Value} (hg : Adds f g tops) (hh : Adds g h v.tops) (ha : f.size ≤ a)
    (halt : a < g.size) (hnone : g.turn a .inside = none) :
    Adds f (h.setValue a (some v)) tops := by
  have hgh := hg.trans hh
  have halt' := Nat.lt_of_lt_of_le halt hh.grown.size_le
  have hnone' : h.turn a .inside = none := by rw [hh.grown.turn_eq halt, hnone]
  have hgrown := hgh.grown.setValue ha (some v)
  rw [Value.tops] at hgh
  cases hv : v.container? with
  | none =>
    rw [hv, Option.toList_none, List.append_nil] at hgh
    refine hgh.keep hgrown (by simp) fun {x s} _ => ?_
    rw [turn_setValue halt', hv]
    split
    · rename_i heq
      rw [heq.1, heq.2, hnone']
    · rfl
  | some c =>
    rw [hv, Option.toList_some] at hgh
    exact hgh.link (t := .inside) List.perm_append_comm hgrown (by simp) ha hnone'
      (fun _ => by rw [turn_setValue halt', hv]) (hg.reached_of_grown hh.grown ha halt)

theorem Adds.createWith {v : Option Value} (hg : Adds f g (v.bind Value.container?).toList)
    (n : String) : Adds f (g.create n v).2 [g.size] := by
  cases hv : v.bind Value.container? with
  | none =>
    rw [hv] at hg
    exact hg.trans (.create hg.grown.wf n hv)
  | some c =>
    rw [hv, Option.toList_some] at hg
    have hbare : (none : Option Value).bind Value.container? = none := rfl
    refine (hg.trans (.create hg.grown.wf n hbare)).link (t := .inside) (.refl _)
      (hg.grown.trans (.create hg.grown.wf root n v)) (by simp) hg.grown.size_le ?_ (fun _ => ?_)
      ⟨g.size, by simp, [], rfl⟩
    · rw [turn_create, if_pos ⟨rfl, rfl⟩]
      rfl
    · rw [turn_create, turn_create, hv]
      split
      · rfl
      · rfl

/-! ## Rising turns -/

/-- From `low` on, every turn leads to a younger node. -/
def Rising (low : Nat) (f : Forest) : Prop := ∀ a t b, low ≤ a → f.turn a t = some b → a < b

theorem Rising.of_size_le (h : f.size ≤ low) : Rising low f := by
  intro a t b ha hab
  rw [turn_of_size_le (h.trans ha)] at hab
  cases hab

theorem rising_empty (low : Nat) : Rising low empty := by
  intro a t b _ h
  rw [turn_empty] at h
  cases h

theorem rising_create (f : Forest) (n : String) : Rising f.size (f.create n none).2 := by
  intro a t b ha hab
  rw [turn_create, turn_of_size_le ha, Option.bind_none, ite_self] at hab
  cases hab

theorem Rising.trans (hg : Rising low g) (hh : Rising g.size h) (hgh : Grown g h q []) :
    Rising low h := by
  intro a t b ha hab
  rcases Nat.lt_or_ge a g.size with hlt | hge
  · rw [hgh.turn_eq hlt] at hab
    exact hg a t b ha hab
  · exact hh a t b hge hab

theorem Rising.link {next : Option NodeId} (hg : Rising low g)
    (hturn : ∀ {a' t'}, h.turn a' t' = if a' = a ∧ t' = t then next else g.turn a' t')
    (hnext : ∀ b, next = some b → a < b) : Rising low h := by
  intro x s y hx hxy
  rw [hturn] at hxy
  split at hxy
  · rename_i heq
    rw [heq.1]
    exact hnext y hxy
  · exact hg x s y hx hxy

/-! ## Routes that do not go in circles -/

/-- Every route from the node leads to a node of the forest. -/
def Confined (f : Forest) (a : NodeId) : Prop := ∀ route b, f.follow a route = some b → b < f.size

theorem Confined.lt (ha : Confined f a) : a < f.size := ha [] a rfl

theorem Confined.turn (ha : Confined f a) (ht : f.turn a t = some b) : Confined f b :=
  fun route c hc => ha (t :: route) c (by rw [follow, ht, Option.bind_some, hc])

theorem confined_of_turn (hstays : ∀ {a b : NodeId} {t : Turn}, f.turn a t = some b → b < f.size)
    (ha : a < f.size) : Confined f a := by
  intro route b hr
  cases route using List.reverseRecOn with
  | nil =>
    obtain rfl := Option.some.inj hr
    exact ha
  | append_singleton route t =>
    rw [follow_concat, Option.bind_eq_some_iff] at hr
    obtain ⟨x, -, hx⟩ := hr
    exact hstays hx

/-- A route that meets no node twice is shorter than there are nodes. -/
theorem Confined.length_route_lt (ha : Confined f a)
    (hcircle : ∀ way id route, f.follow a way = some id → f.follow id route = some id → route = [])
    (hr : f.follow a route = some b) : route.length < f.size := by
  have hpart : ∀ k, ∃ x, f.follow a (route.take k) = some x := by
    intro k
    rw [← List.take_append_drop k route, follow_append, Option.bind_eq_some_iff] at hr
    obtain ⟨x, hx, -⟩ := hr
    exact ⟨x, hx⟩
  choose node hnode using hpart
  have hlt : ∀ k, node k < f.size := fun k => ha _ _ (hnode k)
  -- Between two places with the same node the route would go in a circle.
  have hne : ∀ {k k'}, k ≤ k' → k' ≤ route.length → node k = node k' → k = k' := by
    intro k k' hle hk' heq
    have hturns : f.follow (node k) ((route.take k').drop k) = some (node k) := by
      have h := hnode k'
      rw [← List.take_append_drop k (route.take k'), follow_append, List.take_take,
        Nat.min_eq_left hle, hnode k, Option.bind_some, ← heq] at h
      exact h
    have hlen := congrArg List.length (hcircle _ _ _ (hnode k) hturns)
    rw [List.length_drop, List.length_take, List.length_nil] at hlen
    omega
  have hnodup : ((List.range (route.length + 1)).map node).Nodup := by
    refine List.Nodup.map_on (fun k hk k' hk' heq => ?_) List.nodup_range
    rw [List.mem_range] at hk hk'
    rcases Nat.le_total k k' with hle | hle
    · exact hne hle (Nat.le_of_lt_succ hk') heq
    · exact (hne hle (Nat.le_of_lt_succ hk) heq.symm).symm
  have hall : ∀ x ∈ (List.range (route.length + 1)).map node, x < f.size := by
    intro x hx
    obtain ⟨k, -, rfl⟩ := List.mem_map.mp hx
    exact hlt k
  have hle := length_le_of_nodup hnodup hall
  rw [List.length_map, List.length_range] at hle
  exact hle

/-! ## One route to every node -/

theorem Adds.follow_new (h : Adds f g tops) (ha : f.size ≤ a) (hlt : a < g.size)
    (hr : g.follow a route = some b) : f.size ≤ b ∧ b < g.size := by
  induction route generalizing a with
  | nil =>
    obtain rfl := Option.some.inj hr
    exact ⟨ha, hlt⟩
  | cons t route ih =>
    rw [follow, Option.bind_eq_some_iff] at hr
    obtain ⟨c, hc, hr⟩ := hr
    obtain ⟨hlow, hsize⟩ := h.stays ha hc
    exact ih hlow hsize hr

theorem Adds.existsUnique_route_from (h : Adds f g [a]) (hlow : f.size ≤ id) (hlt : id < g.size) :
    ∃! route, g.follow a route = some id := by
  have htop := h.fresh (b := a) (by simp)
  have hnew : ∀ {route b}, g.follow a route = some b → f.size ≤ b := fun hr =>
    (h.follow_new htop.1 htop.2 hr).1
  have hunique : ∀ {route route' id}, g.follow a route = some id →
      g.follow a route' = some id → route = route' := by
    intro route
    -- The last turn of a route is known by the node it leads to.
    induction route using List.reverseRecOn with
    | nil =>
      intro route' id hr hr'
      obtain rfl := Option.some.inj hr
      cases route' using List.reverseRecOn with
      | nil => rfl
      | append_singleton route' t' =>
        rw [follow_concat, Option.bind_eq_some_iff] at hr'
        obtain ⟨x, hr', hx⟩ := hr'
        exact absurd hx (h.free (by simp) (hnew hr'))
    | append_singleton route t ih =>
      intro route' id hr hr'
      rw [follow_concat, Option.bind_eq_some_iff] at hr
      obtain ⟨x, hr, hx⟩ := hr
      cases route' using List.reverseRecOn with
      | nil =>
        obtain rfl := Option.some.inj hr'
        exact absurd hx (h.free (by simp) (hnew hr))
      | append_singleton route' t' =>
        rw [follow_concat, Option.bind_eq_some_iff] at hr'
        obtain ⟨x', hr', hx'⟩ := hr'
        obtain ⟨rfl, rfl⟩ := h.unique (hnew hr) (hnew hr') hx hx'
        rw [ih hr hr']
  obtain ⟨top, htop, route, hroute⟩ := h.reached id hlow hlt
  obtain rfl := List.mem_singleton.mp htop
  exact ⟨route, hroute, fun route' hroute' => hunique hroute' hroute⟩

/-! ## Forests with one route to every node -/

theorem Adds.existsUnique_route (h : Adds ⟨#[]⟩ f [root]) (hid : id < f.size) :
    ∃! route, f.follow root route = some id :=
  h.existsUnique_route_from (Nat.zero_le _) hid

theorem Adds.stays_of_empty (h : Adds ⟨#[]⟩ f [root]) (hab : f.turn a t = some b) : b < f.size :=
  (h.stays (Nat.zero_le _) hab).2

theorem Adds.follow_lt (h : Adds ⟨#[]⟩ f [root]) (hr : f.follow root route = some id) :
    id < f.size :=
  confined_of_turn h.stays_of_empty h.grown.wf.root_lt _ _ hr

/-- Going in a circle would be a second route to where it starts. -/
theorem Adds.not_circle (h : Adds ⟨#[]⟩ f [root]) (id : NodeId) (route : List Turn)
    (hr : f.follow id route = some id) : route = [] := by
  rcases Nat.lt_or_ge id f.size with hlt | hge
  · obtain ⟨way, hway, hunique⟩ := h.existsUnique_route hlt
    have hlong : f.follow root (way ++ route) = some id := by
      rw [follow_append, hway, Option.bind_some, hr]
    exact List.append_right_eq_self.mp (hunique _ hlong)
  · cases route with
    | nil => rfl
    | cons t route =>
      rw [follow, turn_of_size_le hge] at hr
      cases hr

theorem Adds.length_route_lt (h : Adds ⟨#[]⟩ f [root]) (hr : f.follow root route = some id) :
    route.length < f.size :=
  Confined.length_route_lt (fun _ _ hr => h.follow_lt hr)
    (fun _ id route _ => h.not_circle id route) hr

end Forest
end Outline
