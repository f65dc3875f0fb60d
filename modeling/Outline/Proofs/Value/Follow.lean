import Mathlib.Order.WellFounded
import Outline.Command
import Outline.Proofs.Document.Unbounded
import Outline.Proofs.Path.Calls

/-!
# Following expressions

Reading through expressions is a recursion that may go on forever: an expression stands for what
the node it leads to stands for. The loop that does the reading keeps a list of the nodes that
it followed. It ends after at most as many rounds as there are nodes, and one more; it gives
what the recursion gives, and where the recursion goes on forever it says so.
-/

namespace Outline

open Outline.Path

/-! ## Evaluation without a bound -/

namespace Path

variable {w : World} {e : Expression} {id : NodeId} {trail : List NodeId}
  {res : Except Error (List NodeId)}

/-- Started with a trail, the recursion of the evaluator ends with this result, and it leaves
this trail. -/
def World.Evaluates (w : World) (e : Expression) (id : NodeId) (trail : List NodeId)
    (res : Except Error (List NodeId)) (trail' : List NodeId) : Prop :=
  ∃ depth, w.evaluateGuarded depth e id trail = some (res, trail')

theorem evaluates_iff :
    w.Evaluates e id [] res trail ↔ (w.evaluate e id).result = res ∧ trail = [] := by
  have hcall : w.Evaluates e id [] res trail ↔ (Call.evaluate e id).Ends w [] (res, trail) :=
    .rfl
  rw [hcall, Call.ends_iff, Prod.mk.injEq, eq_comm (a := res)]
  rfl

/-- The expression of a node leads to one node. -/
def World.Leads (w : World) (a b : NodeId) : Prop :=
  ∃ e, w.forest.value a = some (.expression e) ∧ (w.evaluate e a).result = .ok [b]

theorem World.Leads.unique {a b b' : NodeId} (h : w.Leads a b) (h' : w.Leads a b') : b = b' := by
  obtain ⟨e, hv, hres⟩ := h
  obtain ⟨e', hv', hres'⟩ := h'
  rw [hv] at hv'
  cases hv'
  rw [hres] at hres'
  cases hres'
  rfl

end Path

namespace Target

variable {α : Type} {t : Target α} {fallback : α} {w : World} {id : NodeId} {k : Nat}
  {trail followed : List NodeId} {r : Except Error α}

/-! ## The recursion -/

/-- What a node stands for, however far away. -/
inductive Reads (t : Target α) (fallback : α) (w : World) : NodeId → Except Error α → Prop
  | value {id : NodeId} (hv : ∀ e, w.forest.value id ≠ some (.expression e)) :
      Reads t fallback w id (t.get w.forest id)
  | fails {id : NodeId} {e : Expression} {error : Error}
      (hv : w.forest.value id = some (.expression e))
      (hres : (w.evaluate e id).result = .error error) : Reads t fallback w id (.error error)
  | none {id : NodeId} {e : Expression} (hv : w.forest.value id = some (.expression e))
      (hres : (w.evaluate e id).result = .ok []) : Reads t fallback w id (.ok fallback)
  | one {id next : NodeId} {e : Expression} {r : Except Error α}
      (hv : w.forest.value id = some (.expression e))
      (hres : (w.evaluate e id).result = .ok [next]) (hnext : Reads t fallback w next r) :
      Reads t fallback w id r
  | many {id a b : NodeId} {ids : List NodeId} {e : Expression}
      (hv : w.forest.value id = some (.expression e))
      (hres : (w.evaluate e id).result = .ok (a :: b :: ids)) :
      Reads t fallback w id (.error (.multipleResults e.text))

theorem Reads.unique {r' : Except Error α} (h : Reads t fallback w id r)
    (h' : Reads t fallback w id r') : r = r' := by
  induction h with
  | one hv hres _ ih =>
    cases h' with
    | one hv' hres' hnext' => simp_all
    | _ => simp_all
  | _ => cases h' <;> simp_all

/-- There is an end to the recursion where there is one to the chain of single results. -/
theorem exists_reads_iff : (∃ r, Reads t fallback w id r) ↔ Acc (fun b a => w.Leads a b) id := by
  constructor
  · rintro ⟨r, h⟩
    induction h with
    | one hv hres _ ih =>
      refine .intro _ fun b hb => ?_
      rwa [hb.unique ⟨_, hv, hres⟩]
    | _ =>
      refine .intro _ fun b hb => ?_
      obtain ⟨e', hv', hres'⟩ := hb
      simp_all
  · intro h
    induction h with
    | intro id _ ih =>
      by_cases hplain : ∀ e, w.forest.value id ≠ some (.expression e)
      · exact ⟨_, .value hplain⟩
      obtain ⟨e, hv⟩ := not_forall_not.mp hplain
      cases hres : (w.evaluate e id).result with
      | error error => exact ⟨_, .fails hv hres⟩
      | ok ids =>
        match ids with
        | [] => exact ⟨_, .none hv hres⟩
        | [next] =>
          obtain ⟨r, hr⟩ := ih next ⟨e, hv, hres⟩
          exact ⟨r, .one hv hres hr⟩
        | a :: b :: ids => exact ⟨_, .many hv hres⟩

/-! ## The loop -/

/-- The loop, with the trail of its evaluator and the nodes that it followed, latest first. It
ends with this result after so many rounds of its body. -/
inductive Rounds (t : Target α) (fallback : α) (w : World) :
    (trail followed : List NodeId) → NodeId → Nat → Except Error α → Prop
  | leave {trail followed : List NodeId} {id : NodeId}
      (hv : ∀ e, w.forest.value id ≠ some (.expression e)) :
      Rounds t fallback w trail followed id 0 (t.get w.forest id)
  | again {trail followed : List NodeId} {id : NodeId} {e : Expression}
      (hv : w.forest.value id = some (.expression e)) (hmem : id ∈ followed) :
      Rounds t fallback w trail followed id 1 (.error (.circularExpression e.text))
  | fails {trail trail' followed : List NodeId} {id : NodeId} {e : Expression} {error : Error}
      (hv : w.forest.value id = some (.expression e)) (hmem : id ∉ followed)
      (hres : w.Evaluates e id trail (.error error) trail') :
      Rounds t fallback w trail followed id 1 (.error error)
  | none {trail trail' followed : List NodeId} {id : NodeId} {e : Expression}
      (hv : w.forest.value id = some (.expression e)) (hmem : id ∉ followed)
      (hres : w.Evaluates e id trail (.ok []) trail') :
      Rounds t fallback w trail followed id 1 (.ok fallback)
  | one {trail trail' followed : List NodeId} {id next : NodeId} {e : Expression} {k : Nat}
      {r : Except Error α} (hv : w.forest.value id = some (.expression e)) (hmem : id ∉ followed)
      (hres : w.Evaluates e id trail (.ok [next]) trail')
      (hnext : Rounds t fallback w trail' (id :: followed) next k r) :
      Rounds t fallback w trail followed id (k + 1) r
  | many {trail trail' followed : List NodeId} {id a b : NodeId} {ids : List NodeId}
      {e : Expression} (hv : w.forest.value id = some (.expression e)) (hmem : id ∉ followed)
      (hres : w.Evaluates e id trail (.ok (a :: b :: ids)) trail') :
      Rounds t fallback w trail followed id 1 (.error (.multipleResults e.text))

theorem Rounds.unique {k' : Nat} {r' : Except Error α}
    (h : Rounds t fallback w trail followed id k r) (htrail : trail = [])
    (h' : Rounds t fallback w trail followed id k' r') : k = k' ∧ r = r' := by
  induction h generalizing k' with
  | one hv hmem hres _ ih =>
    subst htrail
    obtain ⟨hsingle, rfl⟩ := evaluates_iff.mp hres
    cases h' with
    | one hv' hmem' hres' hnext' =>
      obtain rfl := Value.expression.inj (Option.some.inj (hv.symm.trans hv'))
      obtain ⟨hsingle', rfl⟩ := evaluates_iff.mp hres'
      cases hsingle.symm.trans hsingle'
      obtain ⟨rfl, rfl⟩ := ih rfl hnext'
      exact ⟨rfl, rfl⟩
    | _ => simp_all [evaluates_iff]
  | _ =>
    subst htrail
    cases h' <;> simp_all [evaluates_iff]

theorem getFrom_plain (hv : ∀ e, w.forest.value id ≠ some (.expression e)) (fuel : Nat) :
    getFrom t fallback w fuel followed id = t.get w.forest id := by
  unfold getFrom
  split
  · rename_i e he
    exact absurd he (hv e)
  · rfl

theorem getFrom_again {e : Expression} (hv : w.forest.value id = some (.expression e))
    (hmem : id ∈ followed) (fuel : Nat) :
    getFrom t fallback w fuel followed id = .error (.circularExpression e.text) := by
  unfold getFrom
  rw [hv]
  exact if_pos (by simpa using hmem)

theorem getFrom_succ {e : Expression} (hv : w.forest.value id = some (.expression e))
    (hmem : id ∉ followed) (fuel : Nat) :
    getFrom t fallback w (fuel + 1) followed id =
      match (w.evaluate e id).result with
      | .error error => .error error
      | .ok [] => .ok fallback
      | .ok [single] => getFrom t fallback w fuel (id :: followed) single
      | .ok _ => .error (.multipleResults e.text) := by
  conv => lhs; unfold getFrom
  rw [hv]
  exact if_neg (by simpa using hmem)

/-- While there is room on the list of followed nodes, the loop ends before the room does. -/
theorem rounds_getFrom {fuel : Nat} (hroom : Trail w fuel followed) (id : NodeId) :
    ∃ k ≤ fuel + 1,
      Rounds t fallback w [] followed id k (getFrom t fallback w fuel followed id) := by
  induction fuel using Nat.strong_induction_on generalizing followed id with
  | _ fuel ih =>
    by_cases hplain : ∀ e, w.forest.value id ≠ some (.expression e)
    · rw [getFrom_plain hplain]
      exact ⟨0, Nat.zero_le _, .leave hplain⟩
    obtain ⟨e, hv⟩ := not_forall_not.mp hplain
    by_cases hmem : id ∈ followed
    · rw [getFrom_again hv hmem]
      exact ⟨1, Nat.le_add_left 1 fuel, .again hv hmem⟩
    obtain ⟨rest, rfl, hpush⟩ := hroom.push hv hmem
    rw [getFrom_succ hv hmem]
    cases hres : (w.evaluate e id).result with
    | error error =>
      exact ⟨1, Nat.le_add_left 1 _, .fails hv hmem (evaluates_iff.mpr ⟨hres, rfl⟩)⟩
    | ok ids =>
      match ids with
      | [] => exact ⟨1, Nat.le_add_left 1 _, .none hv hmem (evaluates_iff.mpr ⟨hres, rfl⟩)⟩
      | [next] =>
        obtain ⟨k, hk, hrounds⟩ := ih rest (Nat.lt_succ_self rest) hpush next
        exact ⟨k + 1, Nat.succ_le_succ hk,
          .one hv hmem (evaluates_iff.mpr ⟨hres, rfl⟩) hrounds⟩
      | a :: b :: ids =>
        exact ⟨1, Nat.le_add_left 1 _, .many hv hmem (evaluates_iff.mpr ⟨hres, rfl⟩)⟩

/-! ## The loop and the recursion -/

/-- If every followed node leads here, then the loop gives what the recursion gives, or it comes
upon a node that leads to itself. -/
theorem Rounds.reads_or_circle (h : Rounds t fallback w trail followed id k r)
    (htrail : trail = []) (hfollowed : ∀ i ∈ followed, Relation.TransGen w.Leads i id) :
    Reads t fallback w id r ∨
      ∃ j, Relation.ReflTransGen w.Leads id j ∧ Relation.TransGen w.Leads j j := by
  induction h with
  | leave hv => exact .inl (.value hv)
  | again hv hmem => exact .inr ⟨_, .refl, hfollowed _ hmem⟩
  | fails hv _ hres =>
    subst htrail
    exact .inl (.fails hv (evaluates_iff.mp hres).1)
  | none hv _ hres =>
    subst htrail
    exact .inl (.none hv (evaluates_iff.mp hres).1)
  | @one _ _ _ id next _ _ _ hv _ hres _ ih =>
    subst htrail
    obtain ⟨hres, htrail⟩ := evaluates_iff.mp hres
    have hleads : w.Leads id next := ⟨_, hv, hres⟩
    have hnext := ih htrail fun i hi => by
      rcases List.mem_cons.mp hi with rfl | hi
      · exact .single hleads
      · exact (hfollowed i hi).tail hleads
    rcases hnext with hreads | ⟨j, hj, hcircle⟩
    · exact .inl (.one hv hres hreads)
    · exact .inr ⟨j, .head hleads hj, hcircle⟩
  | many hv _ hres =>
    subst htrail
    exact .inl (.many hv (evaluates_iff.mp hres).1)

theorem not_circle_of_acc {j : NodeId} (h : Acc (fun b a => w.Leads a b) id)
    (hj : Relation.ReflTransGen w.Leads id j) : ¬ Relation.TransGen w.Leads j j := by
  have hacc : Acc (fun b a => w.Leads a b) j := by
    induction hj with
    | refl => exact h
    | tail _ hlead ih => exact ih.inv hlead
  clear hj
  induction hacc with
  | intro j _ ih =>
    intro hcircle
    obtain ⟨b, hb, hback⟩ := Relation.TransGen.head'_iff.mp hcircle
    exact ih b hb (.tail' hback hb)

/-- The followed nodes are the first `n` of a chain, and they are different. -/
structure Follows (chain : Nat → NodeId) (n : Nat) (followed : List NodeId) : Prop where
  mem : ∀ x, x ∈ followed ↔ ∃ i < n, chain i = x
  fresh : ∀ i j, i < j → j < n → chain i ≠ chain j

theorem Follows.push {chain : Nat → NodeId} {n : Nat} (h : Follows chain n followed)
    (hmem : chain n ∉ followed) : Follows chain (n + 1) (chain n :: followed) where
  mem x := by
    rw [List.mem_cons, h.mem]
    constructor
    · rintro (rfl | ⟨i, hi, rfl⟩)
      · exact ⟨n, Nat.lt_succ_self n, rfl⟩
      · exact ⟨i, Nat.lt_succ_of_lt hi, rfl⟩
    · rintro ⟨i, hi, rfl⟩
      rcases Nat.lt_succ_iff_lt_or_eq.mp hi with hi | rfl
      · exact .inr ⟨i, hi, rfl⟩
      · exact .inl rfl
  fresh i j hij hj := by
    rcases Nat.lt_succ_iff_lt_or_eq.mp hj with hj | rfl
    · exact h.fresh i j hij hj
    · intro heq
      exact hmem ((h.mem _).mpr ⟨i, hij, heq⟩)

/-- The first node of the chain that has been there before, and the error that it makes. -/
def Returns (w : World) (chain : Nat → NodeId) (j : Nat) (r : Except Error α) : Prop :=
  (∃ i < j, chain i = chain j) ∧ (∀ i i', i < i' → i' < j → chain i ≠ chain i') ∧
    ∃ e, w.forest.value (chain j) = some (.expression e) ∧ r = .error (.circularExpression e.text)

/-- Nodes that lead on forever are followed up to the first one that has been followed before. -/
theorem Rounds.returns_of_chain (h : Rounds t fallback w trail followed id k r)
    (htrail : trail = []) {chain : Nat → NodeId} (hchain : ∀ i, w.Leads (chain i) (chain (i + 1)))
    {n : Nat} (hid : chain n = id) (hfollowed : Follows chain n followed) :
    ∃ j < n + k, Returns w chain j r := by
  have hleads := hchain n
  rw [hid] at hleads
  induction h generalizing n with
  | again hv hmem =>
    obtain ⟨i, hi, hsame⟩ := (hfollowed.mem _).mp hmem
    subst hid
    exact ⟨n, Nat.lt_succ_self n, ⟨i, hi, hsame⟩, hfollowed.fresh, _, hv, rfl⟩
  | one hv hmem hres _ ih =>
    subst htrail hid
    obtain ⟨hsingle, htrail⟩ := evaluates_iff.mp hres
    have hnext := hleads.unique ⟨_, hv, hsingle⟩
    obtain ⟨j, hj, hreturns⟩ := ih htrail hnext (hfollowed.push hmem) (hnext ▸ hchain (n + 1))
    exact ⟨j, by omega, hreturns⟩
  | _ =>
    subst htrail
    obtain ⟨e', hv', hres'⟩ := hleads
    simp_all [evaluates_iff]

/-! ## Texts -/

/-- The text of every nested tree is made by a recursion that ends. -/
def TextsEnd (r : Registry) (f : Forest) : Prop :=
  ∀ id c, f.value id = some (.node c) →
    Document.Printed r f false 0 (f.children c)
      (Document.printNodes r f false (f.children c)).toList

theorem textsEnd {r : Registry} {f : Forest} (hf : f.WellFormed)
    (hw : ∀ entry ∈ r.writers, Document.ModestWriter entry.2.2)
    (hnested : ∀ id c, f.value id = some (.node c) → c < f.size)
    (hcircle : ∀ id route, f.follow id route = some id → route = []) : TextsEnd r f := by
  intro id c _
  rw [Document.printNodes, String.toList_ofList]
  refine Document.printed_of_shallow hw (fun x hx route b hb => ?_) false 0
  have hin := Forest.confined_of_turn (hf.turn_lt hnested) (hf.child_lt hx)
  exact hin.length_route_lt (fun _ i way _ => hcircle i way) hb

/-! ## Reading through expressions -/

/-- Reading through expressions ends for every node and every type, after at most one round more
than there are nodes; each evaluation on the way ends, and so do the texts that it asks for. It
gives what the recursion gives if that ends. It ends unless there is an endless chain of single
results; then the first node that comes again is reported. -/
theorem getEx_exact {r : Registry} {f : Forest} (hf : f.WellFormed) (t : Target α) (fallback : α)
    (id : NodeId) :
    f.WalksEnd ∧
      ((∀ entry ∈ r.writers, Document.ModestWriter entry.2.2) →
        (∀ id c, f.value id = some (.node c) → c < f.size) →
        (∀ id route, f.follow id route = some id → route = []) → TextsEnd r f) ∧
      (∃ k ≤ f.size + 1, ∀ k' result, Rounds t fallback (r.world f) [] [] id k' result ↔
        k' = k ∧ result = t.getEx fallback (r.world f) id) ∧
      (∀ result, Reads t fallback (r.world f) id result →
        t.getEx fallback (r.world f) id = result) ∧
      (∀ chain : Nat → NodeId, chain 0 = id →
        (∀ i, (r.world f).Leads (chain i) (chain (i + 1))) →
          ∃ j ≤ f.size, Returns (r.world f) chain j (t.getEx fallback (r.world f) id)) ∧
      ((∃ result, Reads t fallback (r.world f) id result) ↔
        ¬ ∃ chain : Nat → NodeId, chain 0 = id ∧
          ∀ i, (r.world f).Leads (chain i) (chain (i + 1))) := by
  obtain ⟨k, hk, hrounds⟩ : ∃ k ≤ f.size + 1, Rounds t fallback (r.world f) [] [] id k
      (t.getEx fallback (r.world f) id) := rounds_getFrom (Trail.nil (r.world f)) id
  refine ⟨hf.walksEnd, textsEnd hf, ⟨k, hk, fun k' result => ⟨fun h => ?_, ?_⟩⟩,
    fun result hreads => ?_, fun chain hstart hchain => ?_, ?_⟩
  · obtain ⟨rfl, rfl⟩ := hrounds.unique rfl h
    exact ⟨rfl, rfl⟩
  · rintro ⟨rfl, rfl⟩
    exact hrounds
  · rcases hrounds.reads_or_circle rfl (by simp) with hloop | ⟨j, hj, hcircle⟩
    · exact hloop.unique hreads
    · exact absurd hcircle (not_circle_of_acc (exists_reads_iff.mp ⟨result, hreads⟩) hj)
  · obtain ⟨j, hj, hreturns⟩ := hrounds.returns_of_chain rfl hchain hstart
      ⟨by simp, fun i j _ hj => absurd hj (Nat.not_lt_zero j)⟩
    exact ⟨j, by omega, hreturns⟩
  · rw [exists_reads_iff, ← not_iff_not, not_not]
    exact not_acc_iff_exists_descending_chain

/-- The first of three nodes leads to the second one, which leads to the third one, which leads
back. -/
theorem getEx_exact_circle :
    let f := ((((((Forest.empty.create "a" (some (.expression ⟨[.next]⟩))).2.create "b"
      (some (.expression ⟨[.next]⟩))).2.create "c" (some (.expression ⟨[.previous]⟩))).2.add
      Forest.root 1).add Forest.root 2).add Forest.root 3)
    let w := Registry.builtin.world f
    let chain : Nat → NodeId := fun i => if i = 0 then 1 else if i % 2 = 1 then 2 else 3
    f.WellFormed ∧ (∀ i, w.Leads (chain i) (chain (i + 1))) ∧
      (¬ ∃ result, Reads value (.bool false) w 1 result) ∧
      (∃ j ≤ f.size, Returns w chain j (value.getEx (.bool false) w 1)) ∧
      value.getEx (.bool false) w 1 = .error (.circularExpression "+") := by
  intro f w chain
  have hf : f.WellFormed := by
    refine (Forest.Edited.extends ?_ Forest.wellFormed_empty).1
    exact (((((Forest.Edited.create Forest.empty "a" _).trans (.create _ "b" _)).trans
      (.create _ "c" _)).trans (.add (by decide) (by decide))).trans
      (.add (by decide) (by decide))).trans (.add (by decide) (by decide))
  have hchain : ∀ i, w.Leads (chain i) (chain (i + 1)) := by
    intro i
    rcases Nat.eq_zero_or_pos i with rfl | hpos
    · exact ⟨⟨[.next]⟩, by decide, by decide +kernel⟩
    · rcases Nat.mod_two_eq_zero_or_one i with hi | hi
      · have hodd : (i + 1) % 2 = 1 := by omega
        simp only [chain, Nat.ne_of_gt hpos, hi, hodd, Nat.succ_ne_zero, if_false, if_true]
        exact ⟨⟨[.previous]⟩, by decide, by decide +kernel⟩
      · have heven : (i + 1) % 2 = 0 := by omega
        simp only [chain, Nat.ne_of_gt hpos, hi, heven, Nat.succ_ne_zero, if_false, if_true]
        exact ⟨⟨[.next]⟩, by decide, by decide +kernel⟩
  obtain ⟨-, -, -, -, hreturns, hends⟩ :=
    getEx_exact (r := Registry.builtin) hf value (.bool false) 1
  exact ⟨hf, hchain, hends.not.mpr (not_not.mpr ⟨chain, rfl, hchain⟩), hreturns chain rfl hchain,
    by decide +kernel⟩

end Target
end Outline
