import Overload.Proofs.Syntax.Writing

/-! String literals. -/

namespace Overload.Syntax

open List Source

def replacements : List (Char × String) :=
  [('\\', "\\\\"), ('"', "\\\""), ('\n', "\\n"), ('\r', "\\r"), ('\t', "\\t"), ('\x08', "\\b"),
   ('\x0c', "\\f"), ('\x0b', "\\v"), ('\x00', "\\x00"), ('\u2028', "\\u2028"),
   ('\u2029', "\\u2029")]

def replaceAll (cs : List Char) (r : Char × String) : List Char :=
  cs.flatMap fun c => if c = r.1 then r.2.toList else [c]

def lineTerminators : List Char := ['\n', '\r', '\u2028', '\u2029']

lemma foldl_replaceAll_append (rs : List (Char × String)) (cs ds : List Char) :
    rs.foldl replaceAll (cs ++ ds) = rs.foldl replaceAll cs ++ rs.foldl replaceAll ds := by
  induction rs generalizing cs ds with
  | nil => rfl
  | cons r rs ih =>
    have hr : replaceAll (cs ++ ds) r = replaceAll cs r ++ replaceAll ds r := by simp [replaceAll]
    rw [foldl_cons, hr, ih, foldl_cons, foldl_cons]

lemma foldl_replaceAll_nil (rs : List (Char × String)) : rs.foldl replaceAll [] = [] := by
  induction rs with
  | nil => rfl
  | cons r rs ih => exact ih

lemma foldl_replaceAll_of_ne {c : Char} {rs : List (Char × String)} (h : ∀ r ∈ rs, c ≠ r.1) :
    rs.foldl replaceAll [c] = [c] := by
  induction rs with
  | nil => rfl
  | cons r rs ih =>
    have hr : replaceAll [c] r = [c] := by simp [replaceAll, h r (by simp)]
    rw [foldl_cons, hr]
    exact ih fun r hr => h r (by simp [hr])

lemma escapeChar_of_not_mem {c : Char} (h : c ∉ escapes) : escapeChar c = [c] := by
  simp only [escapes, mem_cons, not_mem_nil, or_false, not_or] at h
  simp only [escapeChar, h, if_false]

lemma map_fst_replacements : replacements.map (·.1) = escapes := rfl

lemma replaceAll_escapes : ∀ c ∈ escapes,
    replacements.foldl replaceAll [c] = escapeChar c ∧
      ∀ d ∈ escapeChar c, d ∉ lineTerminators := by
  simp [escapes, replacements, replaceAll, escapeChar, lineTerminators]

lemma foldl_replaceAll_singleton (c : Char) :
    replacements.foldl replaceAll [c] = escapeChar c := by
  by_cases hc : c ∈ escapes
  · exact (replaceAll_escapes c hc).1
  · have hne : ∀ r ∈ replacements, c ≠ r.1 := fun r hr he =>
      hc (he ▸ map_fst_replacements ▸ mem_map_of_mem hr)
    rw [foldl_replaceAll_of_ne hne, escapeChar_of_not_mem hc]

lemma foldl_replaceAll_eq (cs : List Char) :
    replacements.foldl replaceAll cs = escapeChars cs := by
  induction cs with
  | nil => exact foldl_replaceAll_nil replacements
  | cons c cs ih =>
    rw [← singleton_append, foldl_replaceAll_append, ih, foldl_replaceAll_singleton]
    rfl

lemma not_mem_lineTerminators {c : Char} {cs : List Char} (h : c ∈ escapeChars cs) :
    c ∉ lineTerminators := by
  obtain ⟨d, -, hd⟩ := mem_flatMap.1 h
  by_cases he : d ∈ escapes
  · exact (replaceAll_escapes d he).2 c hd
  · obtain rfl : c = d := by simpa [escapeChar_of_not_mem he] using hd
    intro hc
    have hsub : ∀ d ∈ lineTerminators, d ∈ escapes := by simp [lineTerminators, escapes]
    exact he (hsub c hc)

/-- A string literal prints as a body between quotes. The body is what the replacements make of the
text; it has no line terminator, and reading it ends at the quote behind it and nowhere before, with
the characters of the text. -/
theorem string_literal_reads_back {s : String} {t : Tree} (h : Constant (.str s) t) :
    ∃ body : List Char, Source.print t = .ok (String.ofList ('"' :: body ++ ['"'])) ∧
      body = replacements.foldl replaceAll s.toList ∧ (∀ c ∈ body, c ∉ lineTerminators) ∧
      ∀ rest, scanText (body ++ '"' :: rest) = some (s.toList, rest) := by
  refine ⟨escapeChars s.toList, ?_, (foldl_replaceAll_eq s.toList).symm,
    fun c => not_mem_lineTerminators, scanText_escapeChars s.toList⟩
  have hs : Shows (.text s) t := by rwa [Shows]
  simpa [pieces, Token.chars] using print_of_shows hs

theorem string_literal_reads_back_hostile :
    let t := Tree.node 0 (.str "Literal") [("value", .str "\\u0022\"\n\x00\u2028\\n0")]
    ∃ body : List Char, print t = .ok (String.ofList ('"' :: body ++ ['"'])) ∧
      body = replacements.foldl replaceAll "\\u0022\"\n\x00\u2028\\n0".toList ∧
      (∀ c ∈ body, c ∉ lineTerminators) ∧
      ∀ rest, scanText (body ++ '"' :: rest) = some ("\\u0022\"\n\x00\u2028\\n0".toList, rest) :=
  string_literal_reads_back ⟨⟨0, .str "Literal", _⟩, rfl, rfl, rfl, rfl, rfl⟩

end Overload.Syntax
