import Outline.Proofs.Document.Reached
import Outline.Proofs.Value.Follow

/-!
# The evaluator of a forest

An evaluator asks its registry for the texts of values, and the text of a nested tree comes from a
walk through this tree. Where no nested trees run in a circle, these walks end, and what is known
of the guard holds of the evaluator as a whole (`evaluate_guard_exact`).

An evaluator that was called before is like a new one. What a call leaves behind is the trail, and
this is empty again after each call, whatever the call ended with. So a row of calls gives what each
of them would give to an evaluator of its own (`session_fresh`).
-/

namespace Outline.Path

/-! ## With and without the guard -/

/-- The guard is exact. Every loop inside a step ends, so do the texts of nested trees that do not
run in a circle, and so does the guarded recursion, whose bound is out of reach. If the recursion
ends without the guard, the guard changes nothing; if it does not end, the guard says so, and it
never says so otherwise. -/
theorem evaluate_guard_exact {r : Registry} {f : Forest} (hf : f.WellFormed) (e : Expression)
    (id : NodeId) :
    f.WalksEnd ∧
      ((∀ entry ∈ r.writers, Document.ModestWriter entry.2.2) →
        (∀ id c, f.value id = some (.node c) → c < f.size) →
        (∀ id route, f.follow id route = some id → route = []) → Target.TextsEnd r f) ∧
      (∀ depth, f.size < depth →
        (r.world f).evaluateGuarded depth e id [] =
          some (((r.world f).evaluate e id).result, [])) ∧
      (∀ result, (r.world f).Converges e id result →
        ((r.world f).evaluate e id).result = result) ∧
      ((∃ c : Error, c.Circular ∧ ((r.world f).evaluate e id).result = .error c) ↔
        ¬ ∃ result, (r.world f).Converges e id result) :=
  ⟨hf.walksEnd, Target.textsEnd hf, fun _ hd => evaluateGuarded_result hd e id,
    fun _ h => h.result, circular_iff_not_converges⟩

/-- An expression that asks for the text of its first child, which refers back to the node, and one
that asks for the text of its second child, a nested tree, and finds the node of that name. -/
theorem evaluate_guard_exact_circle :
    let source := "a:x:\x7b0\x7d\r\n   b:x:.\r\n   c:node:d\r\n   \"d\\r\\n\"\r\n"
    let circle : Expression := ⟨[.extrapolation 0]⟩
    let found : Expression := ⟨[.children, .extrapolation 1]⟩
    ∃ f, Document.parse Registry.builtin.convert false source = .ok f ∧ f.WellFormed ∧
      Target.TextsEnd Registry.builtin f ∧
      (Registry.builtin.world f).Converges found 1 (.ok [6]) ∧
      ((Registry.builtin.world f).evaluate found 1).result = .ok [6] ∧
      ((Registry.builtin.world f).evaluate circle 1).result = .error (.circularExpression ".") ∧
      ¬ ∃ result, (Registry.builtin.world f).Converges circle 1 result := by
  intro source circle found
  have hread : (Document.parse Registry.builtin.convert false source).toOption.any (fun f =>
      ((Registry.builtin.world f).evaluateUnguarded 1 found 1).run = some (.ok [6]) ∧
        ((Registry.builtin.world f).evaluate circle 1).result =
          .error (.circularExpression ".")) = true := by decide +kernel
  clear_value source
  cases h : Document.parse Registry.builtin.convert false source with
  | error e =>
    rw [h] at hread
    cases hread
  | ok f =>
    rw [h] at hread
    obtain ⟨hfound, hcircle⟩ := of_decide_eq_true hread
    obtain ⟨hf, hlt, hroute⟩ := Document.no_circle_of_parse Document.tidyReader_builtin h
    obtain ⟨-, htexts, -, hconverges, -⟩ :=
      evaluate_guard_exact (r := Registry.builtin) hf found 1
    obtain ⟨-, -, -, -, hguard⟩ := evaluate_guard_exact (r := Registry.builtin) hf circle 1
    exact ⟨f, rfl, hf, htexts Document.modestWriter_builtin hlt hroute, ⟨1, hfound⟩,
      hconverges _ ⟨1, hfound⟩, hcircle, hguard.mp ⟨_, ⟨_, rfl⟩, hcircle⟩⟩

/-! ## Calls one after the other -/

variable {w : World} {calls : List Call} {os : List Outcome}

/-- Calls one after the other, each with the trail that the one before it left. -/
def World.session (w : World) : List NodeId → List Call → List Outcome
  | _, [] => []
  | trail, c :: calls =>
    let o := c.run w trail
    o :: session w o.2 calls

/-- The same with recursions that know no bound: each of them ends. -/
inductive Session (w : World) : List NodeId → List Call → List Outcome → Prop
  | done {trail : List NodeId} : Session w trail [] []
  | call {trail : List NodeId} {c : Call} {calls : List Call} {o : Outcome} {os : List Outcome}
      (h : c.Ends w trail o) (hrest : Session w o.2 calls os) :
      Session w trail (c :: calls) (o :: os)

/-- What new evaluators would give, one for each call. -/
def World.fresh (w : World) (calls : List Call) : List Outcome :=
  calls.map fun c => ((c.run w).result, [])

theorem session_eq_fresh (w : World) (calls : List Call) : w.session [] calls = w.fresh calls := by
  induction calls with
  | nil => rfl
  | cons c calls ih =>
    rw [World.session, Call.run_nil, ih]
    rfl

theorem session_iff : Session w [] calls os ↔ os = w.fresh calls := by
  constructor
  · intro h
    -- The trail is an index of the induction, so it is kept apart from its value.
    generalize htrail : ([] : List NodeId) = trail at h
    induction h with
    | done => rfl
    | call h _ ih =>
      subst htrail
      obtain rfl := Call.ends_iff.mp h
      rw [ih rfl]
      rfl
  · rintro rfl
    induction calls with
    | nil => exact .done
    | cons c calls ih => exact .call (Call.ends_iff.mpr rfl) ih

/-- An evaluator has no memory. Whichever calls it gets, each of them ends, with a result or with an
error, and so do the walks and the texts that it asks for. It leaves the trail empty, and it gives
what a new evaluator would give. In the midst of following, too, a call leaves the trail as it
was. -/
theorem session_fresh {r : Registry} {f : Forest} (hf : f.WellFormed) (calls : List Call) :
    f.WalksEnd ∧
      ((∀ entry ∈ r.writers, Document.ModestWriter entry.2.2) →
        (∀ id c, f.value id = some (.node c) → c < f.size) →
        (∀ id route, f.follow id route = some id → route = []) → Target.TextsEnd r f) ∧
      (r.world f).session [] calls = (r.world f).fresh calls ∧
      (∀ os, Session (r.world f) [] calls os ↔ os = (r.world f).fresh calls) ∧
      ∀ c trail o, Call.Ends (r.world f) c trail o → o.2 = trail :=
  ⟨hf.walksEnd, Target.textsEnd hf, session_eq_fresh _ calls, fun _ => session_iff,
    fun _ _ _ h => h.trail_eq⟩

/-- Four calls that fail below an expression that is followed, each in another way, and one that
follows an expression to its end. -/
theorem session_fresh_failures :
    let source := "a:x:\x7b0\x7d\r\n   b:x:.\r\n   c:x:./*\r\n   d:x:#\r\n   e:x:\x7b5\x7d\r\n" ++
      "   f:x:*\r\n      g:d\r\n"
    let calls : List Call := [.apply 1 (.extrapolation 0) [1], .evaluate ⟨[.extrapolation 1]⟩ 1,
      .apply 1 (.extrapolation 2) [], .evaluate ⟨[.extrapolation 3]⟩ 1,
      .evaluate ⟨[.children, .extrapolation 4]⟩ 1]
    ∃ f, Document.parse Registry.builtin.convert false source = .ok f ∧ f.WellFormed ∧
      Target.TextsEnd Registry.builtin f ∧
      Session (Registry.builtin.world f) [] calls
        [(.error (.circularExpression "."), []), (.error (.multipleResults "./*"), []),
          (.error (.notANode "d"), []), (.error (.extrapolationOutOfRange 5), []),
          (.ok [4], [])] := by
  intro source calls
  have hread : (Document.parse Registry.builtin.convert false source).toOption.any (fun f =>
      (Registry.builtin.world f).fresh calls =
        [(.error (.circularExpression "."), []), (.error (.multipleResults "./*"), []),
          (.error (.notANode "d"), []), (.error (.extrapolationOutOfRange 5), []),
          (.ok [4], [])]) = true := by decide +kernel
  clear_value source
  cases h : Document.parse Registry.builtin.convert false source with
  | error e =>
    rw [h] at hread
    cases hread
  | ok f =>
    rw [h] at hread
    have hfresh := of_decide_eq_true hread
    obtain ⟨hf, hlt, hcircle⟩ := Document.no_circle_of_parse Document.tidyReader_builtin h
    obtain ⟨-, htexts, -, hsession, -⟩ := session_fresh (r := Registry.builtin) hf calls
    exact ⟨f, rfl, hf, htexts Document.modestWriter_builtin hlt hcircle,
      (hsession _).mpr hfresh.symm⟩

end Outline.Path
