import Mathlib.Data.List.Infix
import Mathlib.Tactic.Common
import Outline.Outcome
import Outline.Text.Quoted

/-!
# Where readers stop

A reader takes characters from the front of a text and leaves the rest of it. If it stops early, it
has taken all in front of the place that it reports, and the fault is to be seen there.
-/

namespace Outline

open Text

/-- What the text around a fault shows: `front` was read, and `rest` was not. -/
def SyntaxFault.Shown (front rest : List Char) : SyntaxFault → Prop
  | loneCarriageReturn => rest.head? = some '\r' ∧ ¬ crlf <+: rest
  | expectedLineEnd => ∀ c ∈ rest.head?, isBreak c = false
  | indentation n => List.replicate n ' ' <:+ front ∧ n % 3 ≠ 0
  | unclosedComment | unclosedString | endInEscape => rest = []
  | textAfterComment | textAfterName | textAfterValue => atLineEnd rest = false
  | secondSeparator => rest.head? = some ':'
  | breakInString => ∃ c ∈ rest.head?, isBreak c = true
  | returnEscape => ['\\', 'r'] <:+ front ∧ ¬ ['\\', 'n'] <+: rest
  | badCode digits => ['\\', 'x'] <:+ front ∧ digits = String.ofList (rest.take 4) ∧
      code? (rest.take 4) = none
  | badEscape c => ['\\', c] <:+ front ∧ escape? c = none ∧ c ≠ 'r' ∧ c ≠ 'x'
  | _ => False

theorem SyntaxFault.Shown.append {fault : SyntaxFault} {front rest : List Char}
    (h : fault.Shown front rest) (s : List Char) : fault.Shown (s ++ front) rest := by
  have hback : ∀ {t : List Char}, t <:+ front → t <:+ s ++ front :=
    fun ht => ht.trans (List.suffix_append s front)
  cases fault with
  | indentation | returnEscape | badCode | badEscape => exact ⟨hback h.1, h.2⟩
  | _ => exact h

namespace Text

variable {α β : Type} {s t u r : List Char} {h : Halt}

/-- While `s` was read, the fault was met behind a part of it. -/
def Met (s : List Char) (h : Halt) : Prop :=
  ∃ front, s = front ++ h.rest ∧ h.fault.Shown front h.rest

theorem met_self {fault : SyntaxFault} (hf : fault.Shown [] s) : Met s ⟨fault, s⟩ := ⟨[], rfl, hf⟩

theorem Met.mono (hs : s <:+ t) (hmet : Met s h) : Met t h := by
  obtain ⟨u, rfl⟩ := hs
  obtain ⟨front, hsplit, hshown⟩ := hmet
  exact ⟨u ++ front, by rw [hsplit, List.append_assoc], hshown.append u⟩

/-- Reading from `s` gives something with the property, or it stops at a fault in `s`. -/
def Takes (s : List Char) (P : α → Prop) : Except Halt α → Prop
  | .ok a => P a
  | .error h => Met s h

namespace Takes

variable {P Q : α → Prop} {x : Except Halt α}

theorem mono (hs : s <:+ t) (hPQ : ∀ a, P a → Q a) (hx : Takes s P x) : Takes t Q x := by
  cases x with
  | ok a => exact hPQ a hx
  | error h => exact Met.mono hs hx

theorem of_ok {a : α} (hx : Takes s P x) (h : x = .ok a) : P a := by
  rw [h] at hx
  exact hx

theorem of_error {e : Halt} (hx : Takes s P x) (h : x = .error e) : Met s e := by
  rw [h] at hx
  exact hx

theorem bind {R : β → Prop} {k : α → Except Halt β} (hx : Takes s P x)
    (hk : ∀ a, x = .ok a → P a → Takes s R (k a)) : Takes s R (x >>= k) := by
  cases x with
  | ok a => exact hk a rfl hx
  | error h => exact hx

end Takes

/-- Reading from `s` leaves the rest of it, or it stops at a fault in it. -/
def Leaves (s : List Char) (x : Except Halt (α × List Char)) : Prop := Takes s (·.2 <:+ s) x

theorem Leaves.mono {x : Except Halt (α × List Char)} (hs : s <:+ t) (hx : Leaves s x) :
    Leaves t x := Takes.mono hs (fun _ hr => hr.trans hs) hx

theorem Leaves.prepend {x : Reading} (hx : Leaves s x) (t : List Char) :
    Leaves s (x.prepend t) := by
  cases x with
  | ok a => exact hx
  | error h => exact hx

theorem takes_breakLine (s : List Char) : Takes s (· <:+ s) (breakLine s) := by
  unfold breakLine
  split
  · exact List.suffix_cons _ _
  · exact List.suffix_append ['\r', '\n'] _
  · rename_i r hne
    refine met_self ⟨rfl, ?_⟩
    rintro ⟨r', hr⟩
    exact hne r' (List.cons.inj hr).2.symm
  · rename_i hfeed _ hreturn
    refine met_self fun c hc => ?_
    obtain ⟨r, rfl⟩ := List.head?_eq_some_iff.mp hc
    have hr : c ≠ '\r' := fun h => hreturn r (by rw [h])
    have hn : c ≠ '\n' := fun h => hfeed r (by rw [h])
    simp [isBreak, hr, hn]

theorem takes_readEscape (s : List Char) : Takes ('\\' :: s) (·.2 <:+ s) (readEscape s) := by
  unfold readEscape
  split
  · exact ⟨['\\'], rfl, rfl⟩
  · rename_i c s
    split
    · exact List.suffix_cons c s
    · rename_i hshort
      split
      · rename_i hr
        subst hr
        split
        · exact List.suffix_append ['r', '\\', 'n'] _
        · rename_i hne
          refine ⟨['\\', 'r'], rfl, List.suffix_refl _, ?_⟩
          rintro ⟨r, rfl⟩
          exact hne r rfl
      · rename_i hr
        split
        · rename_i hx
          subst hx
          split
          · exact (List.drop_suffix 4 s).trans (List.suffix_cons _ _)
          · rename_i hcode
            exact ⟨['\\', 'x'], rfl, List.suffix_refl _, rfl, hcode⟩
        · rename_i hx
          exact ⟨['\\', c], rfl, List.suffix_refl _, hshort, hr, hx⟩

theorem leaves_readQuoted (q : Char) (s : List Char) : Leaves s (readQuoted q s) := by
  fun_induction readQuoted q s with
  | case1 => exact met_self rfl
  | case2 r => exact List.suffix_cons _ r
  | case3 r e he => exact (takes_readEscape r).of_error he
  | case4 r t r' he hq ih =>
    have hescape : r' <:+ r := (takes_readEscape r).of_ok he
    exact (ih.prepend t).mono (hescape.trans (List.suffix_cons _ r))
  | case5 c r hq hs hb => exact met_self ⟨c, rfl, hb⟩
  | case6 c r hq hs hb ih => exact (ih.prepend [c]).mono (List.suffix_cons c r)

theorem leaves_readVerbatim (s : List Char) : Leaves s (readVerbatim s) := by
  fun_induction readVerbatim s with
  | case1 => exact met_self rfl
  | case2 s ih => exact (ih.prepend _).mono (List.suffix_append ['"', '"'] s)
  | case3 s => exact List.suffix_cons _ s
  | case4 s ih => exact (ih.prepend _).mono (List.suffix_cons _ s)
  | case5 s ih => exact (ih.prepend _).mono (List.suffix_append ['\r', '\n'] s)
  | case6 s hne =>
    refine met_self ⟨rfl, ?_⟩
    rintro ⟨r, hr⟩
    exact hne r (List.cons.inj hr).2.symm
  | case7 c s _ _ _ _ _ ih => exact (ih.prepend _).mono (List.suffix_cons c s)

end Text
end Outline
