import Overload.Proofs.Syntax.RoundTrip

/-! The elements of an array, holes among them, are read back from its text, each in its place. -/

namespace Overload.Syntax

open List Source

variable {ts us : List Token} {es : List (Option Expr)}

def ShowsElement : Option Expr → Tree → Prop
  | none => (· = .null)
  | some e => Shows e

def ShowsArray (es : List (Option Expr)) : Tree → Prop :=
  OfKind .arrayExpression <| Field "elements" fun c =>
    ∃ ts, c = .list ts ∧ Forall₂ ShowsElement es ts

/-- What stands between the brackets: a comma closes each place, and only behind an element that
comes last it may be left out. -/
inductive ReadsElements : List Token → List (Option Expr) → Prop
  | nil : ReadsElements [] []
  | hole {ts : List Token} {es : List (Option Expr)} : ReadsElements ts es →
      ReadsElements (.mark "," :: ts) (none :: es)
  | last {ts : List Token} {e : Expr} : Reads .assignment ts e → ReadsElements ts [some e]
  | element {ts us : List Token} {e : Expr} {es : List (Option Expr)} : Reads .assignment ts e →
      ReadsElements us es → ReadsElements (ts ++ .mark "," :: us) (some e :: es)

def ReadsArray (ts : List Token) (es : List (Option Expr)) : Prop :=
  ∃ us, ts = .mark "[" :: us ++ [.mark "]"] ∧ ReadsElements us es

def parseElements (ts : List Token) : Option (List (Option Expr) × List Token) :=
  match ts with
  | [] => none
  | t :: us =>
    if t = .mark "]" then some ([], us)
    else if t = .mark "," then do
      let (es, rest) ← parseElements us
      some (none :: es, rest)
    else do
      let (e, ⟨rest, _⟩) ← advance (t :: us) (parse .assignment (t :: us))
      if rest.head? = some (.mark ",") then do
        let (es, rest) ← parseElements rest.tail
        some (some e :: es, rest)
      else if rest.head? = some (.mark "]") then some ([some e], rest.tail)
      else none
termination_by ts.length
decreasing_by all_goals (simp only [length_cons, length_tail] at *; omega)

def parseArray : List Token → Option (List (Option Expr) × List Token)
  | .mark s :: ts => if s = "[" then parseElements ts else none
  | _ => none

/-- One element with the comma or the bracket behind it. -/
lemma parseElements_element {e : Expr} {t : Token} (h : Reads .assignment ts e)
    (ht : t = .mark "," ∨ t = .mark "]") :
    parseElements (ts ++ t :: us) =
      if t = .mark "," then (parseElements us).map fun r => (some e :: r.1, r.2)
      else some ([some e], us) := by
  have hstop : stops 3 (t :: us) = true := by
    rcases ht with rfl | rfl
    · exact stops_cons us (b := 1) (by decide) (by decide)
    · exact stops_cons us (b := 0) (by decide) (by decide)
  obtain ⟨v, vs, hv, hs⟩ := h.head
  have hne : v ≠ .mark "]" ∧ v ≠ .mark "," := by
    constructor <;> (rintro rfl; revert hs; decide)
  have hvs : ts ++ t :: us = v :: (vs ++ t :: us) := by rw [hv, cons_append]
  rw [hvs, parseElements, if_neg hne.1, if_neg hne.2, h.parses.advance hvs.symm hstop]
  rcases ht with rfl | rfl
  · cases he : parseElements us <;> simp [he]
  · simp

theorem ReadsElements.parse (h : ReadsElements ts es) (rest : List Token) :
    parseElements (ts ++ .mark "]" :: rest) = some (es, rest) := by
  induction h with
  | nil => simp [parseElements]
  | hole _ ih =>
    rw [cons_append, parseElements]
    simp [ih]
  | last h => simp [parseElements_element h]
  | element h _ ih =>
    rw [append_assoc, cons_append, parseElements_element h (.inl rfl), ih]
    simp

lemma ReadsArray.parse (h : ReadsArray ts es) : parseArray ts = some (es, []) := by
  obtain ⟨us, rfl, h⟩ := h
  simpa [parseArray] using h.parse []

def elementPieces : Option Expr → List Piece
  | none => []
  | some e => atLeast 3 e (pieces e)

def lastComma (es : List (Option Expr)) : List Piece :=
  if es.getLast?.any Option.isNone then [mark ","] else []

def elementsPieces (es : List (Option Expr)) : List Piece :=
  separated (es.map elementPieces) ++ lastComma es

lemma elementsPieces_cons (o p : Option Expr) (es : List (Option Expr)) :
    elementsPieces (o :: p :: es) =
      elementPieces o ++ mark "," :: .gap :: elementsPieces (p :: es) := by
  simp [elementsPieces, separated_cons, lastComma]

section

variable {trees : List Tree} (h : Forall₂ ShowsElement es trees)
include h

/-- Every hole has a comma of its own: the one before the next place, or the one at the end. -/
lemma reads_elementsPieces : ReadsElements (tokens (elementsPieces es)) es := by
  induction h with
  | nil => exact .nil
  | @cons o t es trees ho hes ih =>
    have hr (e : Expr) (he : Shows e t) : Reads .assignment (tokens (elementPieces (some e))) e :=
      reads_operand (reads_pieces e t he) (m := .assignment) (by decide)
    cases hes with
    | nil =>
      cases o with
      | none => exact .hole .nil
      | some e => simpa [elementsPieces, separated, intercalate, lastComma] using
          ReadsElements.last (hr e ho)
    | cons =>
      rw [elementsPieces_cons]
      cases o with
      | none => simpa [elementPieces] using ReadsElements.hole ih
      | some e => simpa using ReadsElements.element (hr e ho) ih

lemma followed_elementsPieces : Followed closers (elementsPieces es) := by
  have hitems : ∀ ps ∈ es.map elementPieces, Followed closers ps := by
    induction h with
    | nil => simp
    | @cons o t es trees ho _ ih =>
      rw [map_cons, forall_mem_cons]
      refine ⟨?_, ih⟩
      cases o with
      | none => exact fun _ hr _ => hr
      | some e => exact (spacing_pieces e t ho).atLeast 3
  rw [elementsPieces, lastComma]
  split
  · refine (Followed.separated hitems).append ?_ fun rest => goesOn_token rest (by decide)
    exact fun rest hr _ => ⟨by decide, fun c _ => rfl, hr⟩
  · rw [append_nil]
    exact .separated hitems

lemma printsItem_of_showsElements :
    Forall₂ PrintsItem trees ((es.map elementPieces).map chars) := by
  induction h with
  | nil => exact .nil
  | @cons o t es trees ho _ ih =>
    refine .cons ?_ ih
    cases o with
    | none =>
      obtain rfl := ho
      exact ⟨[], rfl, .nil⟩
    | some e => exact (written_of_shows e t ho).item ho

lemma lastIsHole_of_showsElements :
    lastIsHole trees = es.getLast?.any Option.isNone := by
  induction h with
  | nil => rfl
  | @cons o t es trees ho hes ih =>
    cases hes with
    | nil =>
      cases o with
      | none =>
        obtain rfl := ho
        rfl
      | some e => exact isNull_of_shows ho
    | cons => simpa [lastIsHole] using ih

lemma spells_elements : SpellsAs (commaList (.list trees)) (chars (elementsPieces es)) := by
  have hchars : chars (elementsPieces es) =
      ", ".toList.intercalate ((es.map elementPieces).map chars) ++
        if lastIsHole trees then ",".toList else [] := by
    rw [elementsPieces, chars_append, chars_separated, lastComma, lastIsHole_of_showsElements h]
    split <;> rfl
  rw [hchars]
  exact prints_commaList (printsItem_of_showsElements h)

end

def arrayPieces (es : List (Option Expr)) : List Piece :=
  mark "[" :: elementsPieces es ++ [mark "]"]

lemma print_of_showsArray {t : Tree} (h : ShowsArray es t) :
    print t = .ok (String.ofList (chars (arrayPieces es))) := by
  obtain ⟨n, rfl, hk, c, hc, trees, rfl, h⟩ := h
  obtain ⟨ps, ho, hp⟩ := spells_elements h
  refine Spells.print (spells_of_expand hk (.text "[" :: ps ++ [.text "]"]) ?_ ?_)
  · change array n = _
    simp [array, attr_of_get? hc, ho]
  · simpa [arrayPieces] using
      Renders.text (s := "[") (hp.append (.single "]"))

end Overload.Syntax
