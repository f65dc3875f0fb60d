import Mathlib.Data.List.Forall2
import Outline.Forest.Copy
import Outline.Proofs.Forest.Routes

/-!
# Copies

A copy is a tree of new nodes that shows, turn by turn, what the original shows. Only the
places where nested trees live are new. Where no route goes in a circle, copying gets to the
end of every route before its bound does.
-/

namespace Outline

/-- What a value is besides the place of its nested tree. -/
def Value.outer : Value → Value
  | .node _ => .node Forest.root
  | v => v

theorem Value.outer_eq_or {v v' : Value} (h : v.outer = v'.outer) :
    v = v' ∨ ∃ c c', v = .node c ∧ v' = .node c' := by
  cases v <;> cases v' <;> simp_all [Value.outer]

namespace Forest

variable {f g h : Forest} {a b c x y : NodeId} {t : Turn} {low low' n : Nat}

/-! ## Room for a copy -/

/-- Every route from the node is shorter than `n`. -/
def Shallow (f : Forest) (n : Nat) (id : NodeId) : Prop :=
  ∀ route b, f.follow id route = some b → route.length < n

theorem not_shallow_zero (f : Forest) (id : NodeId) : ¬ Shallow f 0 id :=
  fun h => Nat.not_lt_zero _ (h [] id rfl)

theorem Shallow.turn (h : Shallow f (n + 1) a) (ht : f.turn a t = some b) : Shallow f n b := by
  intro route c hc
  have hlong := h (t :: route) c (by rw [follow, ht, Option.bind_some, hc])
  rwa [List.length_cons, Nat.add_lt_add_iff_right] at hlong

theorem Shallow.mono {m : Nat} (h : Shallow f n a) (hle : n ≤ m) : Shallow f m a :=
  fun route b hb => Nat.lt_of_lt_of_le (h route b hb) hle

theorem Shallow.child (h : Shallow f (n + 1) a) (hb : b ∈ f.children a) : Shallow f n b := by
  obtain ⟨place, ht⟩ := exists_turn_of_mem_children hb
  exact h.turn ht

theorem Shallow.inside (h : Shallow f (n + 1) a)
    (hv : f.value a = some (.node b)) (hc : c ∈ f.children b) : Shallow f n c := by
  have hb := h.turn (turn_inside.mpr hv)
  cases n with
  | zero => exact absurd hb (not_shallow_zero f b)
  | succ n => exact (hb.child hc).mono (Nat.le_succ n)

theorem Confined.child (h : Confined f a) (hb : b ∈ f.children a) : Confined f b := by
  obtain ⟨place, ht⟩ := exists_turn_of_mem_children hb
  exact h.turn ht

/-! ## Looking the same -/

/-- The tree from `y` on in `g` shows what the one from `x` on in `f` shows, and all of it was
made from `low` on. -/
inductive CopyOf (f g : Forest) (low : Nat) : NodeId → NodeId → Prop
  | intro {x y : NodeId} (hlow : low ≤ y) (hlt : y < g.size) (hname : g.name y = f.name x)
      (hvalue : (g.value y).map Value.outer = (f.value x).map Value.outer)
      (hlength : (g.children y).length = (f.children x).length)
      (hturn : ∀ t x' y', f.turn x t = some x' → g.turn y t = some y' → CopyOf f g low x' y') :
      CopyOf f g low x y

namespace CopyOf

theorem turn {x' y' : NodeId} (h : CopyOf f g low x y) (hx : f.turn x t = some x')
    (hy : g.turn y t = some y') : CopyOf f g low x' y' := by
  cases h with
  | intro _ _ _ _ _ hturn => exact hturn t x' y' hx hy

theorem name_eq (h : CopyOf f g low x y) : g.name y = f.name x := by
  cases h with
  | intro _ _ hname => exact hname

theorem outer_eq (h : CopyOf f g low x y) :
    (g.value y).map Value.outer = (f.value x).map Value.outer := by
  cases h with
  | intro _ _ _ hvalue => exact hvalue

theorem lt (h : CopyOf f g low x y) : low ≤ y ∧ y < g.size := by
  cases h with
  | intro hlow hlt => exact ⟨hlow, hlt⟩

theorem children (h : CopyOf f g low x y) :
    List.Forall₂ (CopyOf f g low) (f.children x) (g.children y) := by
  cases h with
  | intro _ _ _ _ hlength hturn =>
    refine List.forall₂_iff_get.mpr ⟨hlength.symm, fun i hi hi' => ?_⟩
    exact hturn (.child i) _ _ (List.getElem?_eq_getElem hi) (List.getElem?_eq_getElem hi')

theorem congr (hc : CopyOf f g low x y) (hlow : low' ≤ low) (hsize : g.size ≤ h.size)
    (hsame : ∀ i, low ≤ i → i < g.size →
      h.name i = g.name i ∧ h.value i = g.value i ∧ h.children i = g.children i) :
    CopyOf f h low' x y := by
  induction hc with
  | @intro x y hl hlt hname hvalue hlength _ ih =>
    obtain ⟨hn, hv, hch⟩ := hsame y hl hlt
    refine .intro (hlow.trans hl) (Nat.lt_of_lt_of_le hlt hsize) (hn.trans hname)
      (by rw [hv, hvalue]) (by rw [hch, hlength]) fun t x' y' hx hy => ?_
    rw [turn_congr hch hv] at hy
    exact ih t x' y' hx hy

theorem mono (hc : CopyOf f g low x y) (hlow : low' ≤ low) : CopyOf f g low' x y :=
  hc.congr hlow (Nat.le_refl _) fun _ _ _ => ⟨rfl, rfl, rfl⟩

theorem grown {q : NodeId} (hc : CopyOf f g low x y) (hlow : low' ≤ low)
    (hg : Grown g h q []) : CopyOf f h low' x y :=
  hc.congr hlow hg.size_le fun i _ hi =>
    ⟨hg.name i hi, hg.value i hi, by simpa using hg.children i hi⟩

theorem grown_source {q : NodeId} (hc : CopyOf f g low x y) (hx : Confined f x)
    (hh : Grown f h q []) : CopyOf h g low x y := by
  induction hc with
  | @intro x y hl hlt hname hvalue hlength _ ih =>
    have hchildren : h.children x = f.children x := by simpa using hh.children x hx.lt
    refine .intro hl hlt (by rw [hname, hh.name x hx.lt]) (by rw [hvalue, hh.value x hx.lt])
      (by rw [hlength, hchildren]) fun t x' y' hx' hy' => ?_
    rw [hh.turn_eq hx.lt] at hx'
    exact ih t x' y' hx' hy' (hx.turn hx')

theorem source {q : NodeId} (hc : CopyOf f g low x y)
    (hstays : ∀ {a b : NodeId} {t : Turn}, f.turn a t = some b → b < f.size)
    (hh : Grown f h q []) (hx : x < f.size) : CopyOf h g low x y :=
  hc.grown_source (confined_of_turn hstays hx) hh

theorem value (h : CopyOf f f low x y) :
    f.value x = f.value y ∨ ∃ c c', f.value x = some (.node c) ∧ f.value y = some (.node c') ∧
      CopyOf f f low c c' := by
  have houter := h.outer_eq
  cases hx : f.value x with
  | none =>
    rw [hx, Option.map_none, Option.map_eq_none_iff] at houter
    exact .inl houter.symm
  | some v =>
    rw [hx, Option.map_some, Option.map_eq_some_iff] at houter
    obtain ⟨v', hy, hv⟩ := houter
    rcases Value.outer_eq_or hv with rfl | ⟨c', c, rfl, rfl⟩
    · exact .inl hy.symm
    · exact .inr ⟨c, c', rfl, hy, h.turn (turn_inside.mpr hx) (turn_inside.mpr hy)⟩

end CopyOf

/-! ## Making copies -/

/-- The value of a copy, and the forest with the copy of its nested tree. -/
def copyValue (n : Nat) (value : Option Value) (f : Forest) : Option Value × Forest :=
  match value with
  | some (.node container) =>
    (some (.node (copyTree n container f).1), (copyTree n container f).2)
  | value => (value, f)

theorem copyValue_of_plain {v : Option Value} (hv : v.bind Value.container? = none) :
    copyValue n v f = (v, f) := by
  unfold copyValue
  split
  · cases hv
  · rfl

def hangCopies (n : Nat) (p : NodeId) (ids : List NodeId) (f : Forest) : Forest :=
  ids.foldl (fun g child => (copyTree n child g).2.add p (copyTree n child g).1) f

theorem copyTree_succ (n : Nat) (id : NodeId) (f : Forest) :
    copyTree (n + 1) id f =
      ((copyValue n (f.value id) f).2.size,
        hangCopies n (copyValue n (f.value id) f).2.size
          ((copyValue n (f.value id) f).2.children id)
          ((copyValue n (f.value id) f).2.create ((copyValue n (f.value id) f).2.name id)
            (copyValue n (f.value id) f).1).2) := by
  unfold copyTree copyValue
  rcases f.value id with _ | v
  · rfl
  · cases v <;> rfl

/-- A copy of `id` is what `made` adds. -/
def Copies (f g : Forest) (id : NodeId) (made : NodeId × Forest) : Prop :=
  Adds g made.2 [made.1] ∧ CopyOf f made.2 g.size id made.1

theorem Copies.hang {made : NodeId × Forest} {base : Forest} {p : NodeId}
    (hmade : Copies f g x made) (hg : Adds base g [p]) :
    Adds base (made.2.add p made.1) [p] ∧ Grown g (made.2.add p made.1) p [made.1] ∧
      CopyOf f (made.2.add p made.1) g.size x made.1 := by
  obtain ⟨hadds, hcopy⟩ := hmade
  obtain ⟨hp, hplt⟩ := hg.fresh (b := p) (by simp)
  have hplt' := Nat.lt_of_lt_of_le hplt hadds.grown.size_le
  have hnone := hadds.parent_eq_none hg.grown.wf
  have hw := hadds.grown.not_within hg.grown.wf hplt hcopy.lt.1
  refine ⟨hg.hang hadds hp hplt, hadds.grown.hang hplt' hcopy.lt.1 hcopy.lt.2 hnone hw, ?_⟩
  refine hcopy.congr (Nat.le_refl _) (by simp) fun i hi _ => ⟨by simp, by simp, ?_⟩
  rw [children_add hadds.grown.wf hplt' hw,
    hadds.grown.wf.filter_children_of_parent_none hnone, if_neg (Nat.ne_of_gt
      (Nat.lt_of_lt_of_le hplt hi)), List.append_nil]

theorem adds_hangCopies {base g : Forest} {p : NodeId} {ids : List NodeId}
    (hcopy : ∀ id ∈ ids, ∀ k, Grown f k root [] → Copies f k id (copyTree n id k))
    (hbase : Grown f base root []) (hg : Adds base g [p]) :
    ∃ new, Adds base (hangCopies n p ids g) [p] ∧ Grown g (hangCopies n p ids g) p new ∧
      List.Forall₂ (CopyOf f (hangCopies n p ids g) g.size) ids new := by
  induction ids generalizing g with
  | nil => exact ⟨[], hg, .refl hg.grown.wf p, .nil⟩
  | cons id ids ih =>
    obtain ⟨hadds, hgrown, hid⟩ := (hcopy id (by simp) g (hbase.trans hg.grown)).hang hg
    obtain ⟨new, hall, hgrown', hnew⟩ := ih (fun id h => hcopy id (by simp [h])) hadds
    refine ⟨(copyTree n id g).1 :: new, hall, hgrown.trans hgrown', .cons ?_ ?_⟩
    · -- The copies that follow are hung in below `p`, which is older than this one.
      have hp := (hg.fresh (b := p) (by simp)).2
      refine hid.congr (Nat.le_refl _) hgrown'.size_le fun i hi hlt =>
        ⟨hgrown'.name i hlt, hgrown'.value i hlt, ?_⟩
      have hchildren := hgrown'.children i hlt
      rwa [if_neg (Nat.ne_of_gt (Nat.lt_of_lt_of_le hp hi)), List.append_nil] at hchildren
    · exact hnew.imp fun x y h => h.mono hgrown.size_le

theorem adds_copyValue {v : Option Value}
    (hcopy : ∀ c, v = some (.node c) → Copies f g c (copyTree n c g)) (hg : g.WellFormed) :
    Adds g (copyValue n v g).2 (((copyValue n v g).1).bind Value.container?).toList ∧
      (copyValue n v g).1.map Value.outer = v.map Value.outer ∧
      ∀ c c', v.bind Value.container? = some c →
        (copyValue n v g).1.bind Value.container? = some c' →
          CopyOf f (copyValue n v g).2 g.size c c' := by
  cases hc : v.bind Value.container? with
  | none =>
    rw [copyValue_of_plain hc, hc]
    exact ⟨.refl hg, rfl, fun c c' h => by cases h⟩
  | some c =>
    obtain ⟨w, rfl, hw⟩ := Option.bind_eq_some_iff.mp hc
    obtain rfl := Value.container?_eq_some.mp hw
    obtain ⟨hadds, hcopy⟩ := hcopy c rfl
    refine ⟨hadds, rfl, fun c c' h h' => ?_⟩
    cases h
    cases h'
    exact hcopy

/-- A new node with a value like that of `id`, below which copies of the children of `id` are
hung in, is a copy of `id`. -/
theorem copyOf_create {k : Forest} {id : NodeId} {value : Option Value} {new : List NodeId}
    (hh : Grown f h root []) (hlt : id < f.size) (hlow : low ≤ h.size)
    (houter : value.map Value.outer = (f.value id).map Value.outer)
    (hinside : ∀ c c', (f.value id).bind Value.container? = some c →
      value.bind Value.container? = some c' → CopyOf f h low c c')
    (hk : Grown (h.create (h.name id) value).2 k h.size new)
    (hnew : List.Forall₂ (CopyOf f k (h.create (h.name id) value).2.size) (h.children id) new) :
    CopyOf f k low id h.size := by
  have hnode : h.size < (h.create (h.name id) value).2.size := by simp
  have hchildren : h.children id = f.children id := by simpa using hh.children id hlt
  have hcopies : k.children h.size = new := by
    rw [hk.children _ hnode, children_create_size, if_pos rfl, List.nil_append]
  have hvalue : k.value h.size = value := by
    rw [hk.value _ hnode, value_create, if_pos rfl]
  refine .intro hlow (Nat.lt_of_lt_of_le hnode hk.size_le) ?_ ?_ ?_ ?_
  · rw [hk.name _ hnode, name_create, if_pos rfl, hh.name id hlt]
  · rw [hvalue, houter]
  · rw [hcopies, ← hnew.length_eq, hchildren]
  · intro t x y hx hy
    cases t with
    | child place =>
      rw [turn, hcopies] at hy
      rw [turn, ← hchildren] at hx
      obtain ⟨hx', rfl⟩ := List.getElem?_eq_some_iff.mp hx
      obtain ⟨hy', rfl⟩ := List.getElem?_eq_some_iff.mp hy
      exact (hnew.get hx' hy').mono (hlow.trans (Nat.le_of_lt hnode))
    | inside =>
      -- The copy of a nested tree is older than the new node and stays what it is.
      rw [turn, hvalue] at hy
      have hold := (Grown.create hh.wf h.size (h.name id) value).trans hk
      exact (hinside x y hx hy).grown (Nat.le_refl _) (hold.detached (.inr (Nat.le_refl _)) root)

theorem copies_copyTree {id : NodeId} (hid : Shallow f n id) (hin : Confined f id)
    (hg : Grown f g root []) : Copies f g id (copyTree n id g) := by
  induction n generalizing id g with
  | zero => exact absurd hid (not_shallow_zero f id)
  | succ n ih =>
    obtain ⟨hadds, houter, hinside⟩ := adds_copyValue (v := f.value id)
      (fun c hc => ih (hid.turn (turn_inside.mpr hc)) (hin.turn (turn_inside.mpr hc)) hg) hg.wf
    rw [copyTree_succ, hg.value id hin.lt]
    generalize copyValue n (f.value id) g = valued at hadds houter hinside
    obtain ⟨value, h⟩ := valued
    have hh := hg.trans hadds.grown
    have hchildren : ∀ c ∈ h.children id, ∀ k, Grown f k root [] →
        Copies f k c (copyTree n c k) := by
      intro c hc k hk
      have hsame : h.children id = f.children id := by simpa using hh.children id hin.lt
      exact ih (hid.child (hsame ▸ hc)) (hin.child (hsame ▸ hc)) hk
    obtain ⟨new, hall, hk, hnew⟩ := adds_hangCopies hchildren hg (hadds.createWith (h.name id))
    exact ⟨hall, copyOf_create hh hin.lt hadds.grown.size_le houter hinside hk hnew⟩

/-- Where nested trees live in the same forest, no turn leads out of it. -/
theorem WellFormed.turn_lt (hf : f.WellFormed)
    (hnested : ∀ id c, f.value id = some (.node c) → c < f.size) (ht : f.turn a t = some b) :
    b < f.size := by
  cases t with
  | child place => exact hf.child_lt (List.mem_of_getElem? ht)
  | inside => exact hnested a b (turn_inside.mp ht)

theorem copies_deepClone (hf : f.WellFormed)
    (hnested : ∀ id c, f.value id = some (.node c) → c < f.size)
    (hcircle : ∀ id route, f.follow id route = some id → route = []) (ha : a < f.size) :
    Copies f f a (f.deepClone a) := by
  have hin : Confined f a := confined_of_turn (hf.turn_lt hnested) ha
  have hroom : Shallow f f.size a := fun route b hb =>
    hin.length_route_lt (fun _ id route _ => hcircle id route) hb
  exact copies_copyTree hroom hin (.refl hf root)

end Forest
end Outline
