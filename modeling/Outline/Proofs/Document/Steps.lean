import Outline.Document.Build
import Outline.Proofs.Forest.Edit

/-!
# The steps of building

What one token does to the forest and to the place in it, case by case. These equations are the
only place where the building steps are taken apart.
-/

namespace Outline.Document

open Build

variable {convert : Convert} {comments : Bool} {container : NodeId} {p : Place} {t : Token}
  (f : Forest)

theorem addNode_apply (name : String) (value : Option Value) :
    addNode p name value f = (.ok f.size, f.grow p.parent name value) := rfl

theorem reset_lt {n : Nat} (hc : container < n) (hp : p.parent < n) :
    (p.reset container).parent < n := by
  rw [Place.reset]
  split
  · exact hc
  · exact hp

/-- A kept comment takes no nodes below it. -/
def belowComment (f : Forest) (comments : Bool) (container : NodeId) (p : Place) : Bool :=
  comments && f.name p.parent == commentName && p.parent != container

theorem accept_name (ht : t.kind = .name) :
    accept convert comments container p t f =
      if belowComment f comments container (p.reset container) then
        (.error (fault f (p.reset container) t .commentWithChildren), f)
      else (.ok { p.reset container with current := some f.size, tag := none, previous := .name },
        f.grow (p.reset container).parent t.text none) := by
  cases hb : belowComment f comments container (p.reset container) <;>
    unfold belowComment at hb
  · simp only [accept, ht, acceptName, bind_apply, get_apply, addNode_apply, pure_apply, hb,
      Bool.false_eq_true, if_false]
  · simp only [accept, ht, acceptName, bind_apply, get_apply, throw_apply, hb, if_true]

theorem accept_comment (ht : t.kind.isComment = true) :
    accept convert comments container p t f =
      if comments then
        (.ok { p.reset container with previous := t.kind },
          f.grow (p.reset container).parent commentName (some (.string t.text)))
      else (.ok { p with previous := t.kind }, f) := by
  have hk : t.kind = .lineComment ∨ t.kind = .blockComment := by
    cases h : t.kind <;> simp [h, Token.Kind.isComment] at ht ⊢
  rcases hk with hk | hk <;> cases comments <;>
    simp only [accept, hk, acceptComment, bind_apply, addNode_apply, pure_apply, Bool.false_eq_true,
      if_false, if_true]

/-- The forest behind a separator. -/
def emptyValue (f : Forest) (p : Place) : Forest :=
  match p.current with
  | some id => if p.previous = .name then f.setValue id (some (.string "")) else f
  | none => f

theorem accept_separator (ht : t.kind = .separator) :
    accept convert comments container p t f =
      (.ok { p with previous := .separator }, emptyValue f p) := by
  cases hc : p.current with
  | none => simp only [accept, ht, acceptSeparator, hc, bind_apply, pure_apply, emptyValue]
  | some id =>
    by_cases hp : p.previous = .name
    · simp only [accept, ht, acceptSeparator, hc, hp, bind_apply, pure_apply, edit_apply,
        emptyValue, if_true]
    · simp only [accept, ht, acceptSeparator, hc, hp, bind_apply, pure_apply, emptyValue, if_false]

theorem accept_type (ht : t.kind = .type) :
    accept convert comments container p t f =
      (.ok { p with tag := some t.text, previous := .type }, f) := by
  simp only [accept, ht, bind_apply, pure_apply]

theorem accept_lineBreak (ht : t.kind = .lineBreak) :
    accept convert comments container p t f = (.ok { p with previous := .lineBreak }, f) := by
  simp only [accept, ht, bind_apply, pure_apply]

theorem accept_space (ht : t.kind = .space) :
    accept convert comments container p t f =
      ((changeLevel f t p).map ({ · with previous := .space }), f) := by
  simp only [accept, ht, bind_apply]
  cases changeLevel f t p <;> rfl

def Place.pending (p : Place) : Option String := p.tag.filter (!·.isEmpty)

theorem accept_value_none (ht : t.kind = .value) (hc : p.current = none) :
    accept convert comments container p t f = (.ok { p with previous := .value }, f) := by
  simp only [accept, ht, acceptValue, hc, bind_apply, pure_apply]

theorem accept_value_plain {id : NodeId} (ht : t.kind = .value) (hc : p.current = some id)
    (hp : p.pending = none) :
    accept convert comments container p t f =
      (.ok { p with tag := none, previous := .value }, f.setValue id (some (.string t.text))) := by
  cases htag : p.tag with
  | none => simp only [accept, ht, acceptValue, hc, htag, bind_apply, pure_apply, edit_apply]
  | some tag =>
    have hempty : tag.isEmpty = true := by simpa [Place.pending, htag, Option.filter] using hp
    simp only [accept, ht, acceptValue, hc, htag, hempty, bind_apply, pure_apply, edit_apply,
      if_true]

theorem accept_value_typed {id : NodeId} {tag : String} (ht : t.kind = .value)
    (hc : p.current = some id) (hp : p.pending = some tag) :
    accept convert comments container p t f =
      match convert tag t.text f with
      | (.ok v, g) => (.ok { p with tag := none, previous := .value }, g.setValue id (some v))
      | (.error e, g) => (.error e, g) := by
  have htag : p.tag = some tag ∧ tag.isEmpty = false := by
    simpa [Place.pending, Option.filter_eq_some_iff] using hp
  rcases hv : convert tag t.text f with ⟨_ | v, g⟩ <;>
    simp only [accept, ht, acceptValue, hc, htag.1, htag.2, hv, bind_apply, pure_apply, edit_apply,
      Bool.false_eq_true, if_false]

/-! ## Whole token lists -/

/-- What every step keeps holds after a whole list of tokens: `I` where building goes on, and
`J` where it breaks off. -/
theorem buildTokens_invariant {I : Place → Forest → Prop} {J : Forest → Prop} {ts : List Token}
    (hstep : ∀ t ∈ ts, ∀ p f, I p f → match accept convert comments container p t f with
      | (.ok q, g) => I q g
      | (.error _, g) => J g) {p : Place} {f : Forest} (hI : I p f) :
    match ts.foldlM (accept convert comments container) p f with
    | (.ok q, g) => I q g
    | (.error _, g) => J g := by
  induction ts generalizing p f with
  | nil => exact hI
  | cons t ts ih =>
    have h := hstep t (by simp) p f hI
    rw [List.foldlM_cons, bind_apply]
    rcases hx : accept convert comments container p t f with ⟨_ | q, g⟩ <;> rw [hx] at h
    · exact h
    · exact ih (fun t ht => hstep t (by simp [ht])) h

theorem parseInto_apply (source : String) :
    parseInto convert comments source container f =
      match tokenize source with
      | .error e => (.error e, f)
      | .ok ts => ((buildTokens convert comments container ts f).1.map fun _ => (),
          (buildTokens convert comments container ts f).2) := by
  simp only [parseInto, bind_apply, ofExcept_apply]
  cases tokenize source with
  | error e => rfl
  | ok ts =>
    rcases hx : buildTokens convert comments container ts f with ⟨_ | q, g⟩ <;>
      simp only [hx, Except.map, pure_apply]

end Outline.Document
