import Mathlib

/-!
# Node paths and aliases

A `NodePath` is the list of node names from the root (whose name is empty) to a node. A
`ResolvedPath` is a path string split in two: a prefix, which `PropertyDecoder::ResolvePath`
takes from the value of an alias, and the rest of the path after the alias. Both are read as
lists of components by `StringList<'/'>`, whose iterator yields the words between separators and
regards no word as following a final separator.

`NodePath::CompareWith` compares the node names with the prefix's components and then goes on
with the suffix's, and says how the node stands to the path: equal, parent, indirect ancestor,
child, indirect descendent or no relation. `compareWith_eq` says what it returns for every node
path and every resolved path. It agrees with the relation of the two component lists except in
one case. When the node path takes in the whole prefix and stops short of the full path, the
code answers `kParent` however many components remain. Its test `next(path_prefix_it)` looks at
the prefix's iterator, which is at its end, where it should look at the suffix's.

Strings are lists of characters, and a property value is its bytes read as characters.
-/

namespace Zircon.Devicetree

/-! ## `StringList` -/

/-- `StringList<Separator>::iterator`: the rest of the string from the current word on, and the
length of the current word, `none` for `npos`: the word runs to the end of the string. -/
structure StringListIterator where
  rest_ : List Char
  len_ : Option Nat
deriving DecidableEq, Repr

namespace StringListIterator

/-- `iterator{}`, which is `end()`. -/
def endIterator : StringListIterator := ⟨[], none⟩

/-- `operator==`: iterators are compared by the length of their word and of their rest. -/
def beq (a b : StringListIterator) : Bool := a.len_ == b.len_ && a.rest_.length == b.rest_.length

/-- `find_first_of(Separator)`, `none` for `npos`. -/
def findFirstOf (sep : Char) (s : List Char) : Option Nat := s.findIdx? (· == sep)

/-- `operator++`. The iterators it is applied to have a non-empty rest, so
`rest_.size() - 1` does not wrap. -/
def next (sep : Char) (it : StringListIterator) : StringListIterator :=
  match it.len_ with
  | none => endIterator
  | some len =>
    if len = it.rest_.length - 1 then endIterator
    else
      let rest := it.rest_.drop (len + 1)
      ⟨rest, if rest.isEmpty then some 0 else findFirstOf sep rest⟩

/-- `operator*`: `rest_.substr(0, len_)`. -/
def deref (it : StringListIterator) : List Char :=
  match it.len_ with
  | none => it.rest_
  | some len => it.rest_.take len

end StringListIterator

open StringListIterator

/-- `StringList<Separator>(data).begin()`. -/
def StringList.begin (sep : Char) (data : List Char) : StringListIterator :=
  ⟨data, findFirstOf sep data⟩

/-- The words from an iterator to `end()`, for at most `fuel` words. -/
def StringList.wordsFrom (sep : Char) : Nat → StringListIterator → List (List Char)
  | 0, _ => []
  | fuel + 1, it =>
    if it.beq endIterator then [] else it.deref :: StringList.wordsFrom sep fuel (it.next sep)

/-- The words `StringList<Separator>(data)` iterates, from `begin()` to `end()`. Every step
shortens the rest, so a string has at most one word more than it has characters. -/
def StringList.words (sep : Char) (data : List Char) : List (List Char) :=
  StringList.wordsFrom sep (data.length + 1) (StringList.begin sep data)

/-- The empty string has no word, and every other string at least one. -/
theorem StringList.words_eq_nil_iff (sep : Char) (data : List Char) :
    StringList.words sep data = [] ↔ data = [] := by
  cases data with
  | nil => simp [StringList.words, StringList.wordsFrom, StringList.begin, findFirstOf, beq,
      endIterator]
  | cons c cs =>
    simp [StringList.words, StringList.wordsFrom, StringList.begin, beq, endIterator]

/-! ## `NodePath::CompareWith` -/

/-- `NodePath::Comparison`. -/
inductive Comparison
  | kEqual
  | kParent
  | kIndirectAncestor
  | kChild
  | kIndirectDescendent
  | kMismatch
deriving DecidableEq, Repr

/-- `ResolvedPath`: the prefix and suffix strings. -/
structure ResolvedPath where
  prefix_ : List Char
  suffix_ : List Char
deriving DecidableEq, Repr

/-- The components of the full path: `StringList<'/'>(prefix)` followed by
`StringList<'/'>(suffix)`. -/
def ResolvedPath.components (path : ResolvedPath) : List (List Char) :=
  StringList.words '/' path.prefix_ ++ StringList.words '/' path.suffix_

/-- `CompareStringRanges`, on what is left of the two ranges at each iterator: it walks both while
their words agree and returns where it stopped. -/
def CompareStringRanges : List (List Char) → List (List Char) → List (List Char) × List (List Char)
  | a :: as, b :: bs => if a ≠ b then (a :: as, b :: bs) else CompareStringRanges as bs
  | as, bs => (as, bs)

/-- `NodePath::CompareWith(const ResolvedPath&)`, for the node names of the path. An iterator is
what is left of its range, so it is at `end()` when nothing is left, and `next(it)` is what is
left after one more word (`operator++` keeps `end()` at `end()`). -/
def NodePath.CompareWith (nodes : List (List Char)) (path : ResolvedPath) : Comparison :=
  let path_prefix := StringList.words '/' path.prefix_
  let (this_prefix_it, path_prefix_it) := CompareStringRanges nodes path_prefix
  if this_prefix_it ≠ [] ∧ path_prefix_it ≠ [] then .kMismatch
  else if this_prefix_it = [] ∧ path_prefix_it ≠ [] then
    if path_prefix_it.tail = [] ∧ path.suffix_.isEmpty then .kParent else .kIndirectAncestor
  else
    let path_suffix := StringList.words '/' path.suffix_
    let (this_suffix_it, path_suffix_it) := CompareStringRanges this_prefix_it path_suffix
    if this_suffix_it ≠ [] ∧ path_suffix_it ≠ [] then .kMismatch
    else if this_suffix_it = [] ∧ path_suffix_it ≠ [] then
      if path_prefix_it.tail = [] then .kParent else .kIndirectAncestor
    else if this_suffix_it ≠ [] ∧ path_suffix_it = [] then
      if this_suffix_it.tail = [] then .kChild else .kIndirectDescendent
    else .kEqual

/-- How a node path `n` stands to a path of components `p`: equal, the parent or an indirect
ancestor when `p` extends it by one component or more, the child or an indirect descendent when
it extends `p`, and no relation otherwise. -/
def compareSpec (n p : List (List Char)) : Comparison :=
  if n = p then .kEqual
  else if n <+: p then (if p.length = n.length + 1 then .kParent else .kIndirectAncestor)
  else if p <+: n then (if n.length = p.length + 1 then .kChild else .kIndirectDescendent)
  else .kMismatch

/-- `CompareStringRanges` stops after the longest run the two ranges share: each range is that run
followed by what it returns, and the two returned differ in their first words unless one is
empty. -/
theorem compareStringRanges_spec {a b a' b' : List (List Char)}
    (h : CompareStringRanges a b = (a', b')) :
    ∃ c, a = c ++ a' ∧ b = c ++ b' ∧ (a' = [] ∨ b' = [] ∨ a'.head? ≠ b'.head?) := by
  induction a generalizing b with
  | nil =>
    simp only [CompareStringRanges, Prod.mk.injEq] at h
    exact ⟨[], by simp [← h.1], by simp [← h.2], .inl h.1.symm⟩
  | cons x xs ih =>
    cases b with
    | nil =>
      simp only [CompareStringRanges, Prod.mk.injEq] at h
      exact ⟨[], by simp [← h.1], by simp [← h.2], .inr (.inl h.2.symm)⟩
    | cons y ys =>
      by_cases hxy : x = y
      · -- the first words agree: the walk goes on
        subst hxy
        simp only [CompareStringRanges, ne_eq, not_true_eq_false, if_false] at h
        obtain ⟨c, ha, hb, hstop⟩ := ih h
        exact ⟨x :: c, by rw [ha]; rfl, by rw [hb]; rfl, hstop⟩
      · simp only [CompareStringRanges, ne_eq, hxy, not_false_eq_true, if_true,
          Prod.mk.injEq] at h
        exact ⟨[], by simp [← h.1], by simp [← h.2], .inr (.inr (by simp [← h.1, ← h.2, hxy]))⟩

/-- A list is not a prefix of one that starts with another word. -/
theorem not_isPrefix_of_head?_ne {a b : List (List Char)} (ha : a ≠ []) (hb : b ≠ [])
    (hab : a.head? ≠ b.head?) (s : List (List Char)) : ¬ a <+: b ++ s := by
  intro hpre
  cases a with
  | nil => exact ha rfl
  | cons x xs =>
    cases b with
    | nil => exact hb rfl
    | cons y ys =>
      rw [List.cons_append, List.cons_prefix_cons] at hpre
      exact hab (by simp [hpre.1])

/-- A list is not a prefix of a shorter one. -/
theorem not_append_isPrefix {a b : List (List Char)} (hb : b ≠ []) : ¬ (a ++ b) <+: a := by
  intro h
  have hlen := h.length_le
  rw [List.length_append] at hlen
  exact hb (List.eq_nil_of_length_eq_zero (by omega))

/-- What `NodePath::CompareWith` returns, for every node path and every resolved path: the
relation of the node path to the full path's components, except that a node path that takes in
the whole prefix and stops short of the full path is always called its parent. -/
theorem compareWith_eq (nodes : List (List Char)) (path : ResolvedPath) :
    NodePath.CompareWith nodes path =
      if StringList.words '/' path.prefix_ <+: nodes ∧ nodes <+: path.components ∧
          nodes ≠ path.components
      then .kParent else compareSpec nodes path.components := by
  have hcomp : path.components =
      StringList.words '/' path.prefix_ ++ StringList.words '/' path.suffix_ := rfl
  have hsuf : path.suffix_.isEmpty = true ↔ StringList.words '/' path.suffix_ = [] := by
    rw [StringList.words_eq_nil_iff, List.isEmpty_iff]
  unfold NodePath.CompareWith
  rw [hcomp]
  generalize StringList.words '/' path.prefix_ = pre at hsuf ⊢
  generalize StringList.words '/' path.suffix_ = suf at hsuf ⊢
  obtain ⟨ta, pa, hcsr⟩ : ∃ ta pa, CompareStringRanges nodes pre = (ta, pa) := ⟨_, _, rfl⟩
  obtain ⟨c, hn, hp, hstop⟩ := compareStringRanges_spec hcsr
  simp only [hcsr, hsuf]
  subst hn hp
  by_cases hpa : pa = []
  · -- the whole prefix matched, and the suffix decides
    subst hpa
    obtain ⟨ts, ps, hcsr'⟩ : ∃ ts ps, CompareStringRanges ta suf = (ts, ps) := ⟨_, _, rfl⟩
    obtain ⟨d, hta, hsf, hstop'⟩ := compareStringRanges_spec hcsr'
    simp only [hcsr', ne_eq, not_true_eq_false, and_false, if_false, List.append_nil]
    subst hta hsf
    by_cases hts : ts = [] <;> by_cases hps : ps = []
    · subst hts hps
      simp [compareSpec]
    · -- the node path stops short of the full path: `kParent`, however far short
      subst hts
      simp [hps]
    · -- the full path stops short of the node path: child or indirect descendent
      subst hps
      have hlen : ts.tail = [] ↔ ts.length = 1 := by
        cases ts with
        | nil => exact absurd rfl hts
        | cons t ts => simp
      simp [hts, compareSpec, hlen, not_append_isPrefix hts]
      have hcond : c.length + (d.length + ts.length) = c.length + d.length + 1 ↔ ts.length = 1 := by
        omega
      simp only [hcond]
    · -- the suffix and the rest of the node path differ
      have hne : ts.head? ≠ ps.head? := by
        rcases hstop' with h | h | h
        · exact absurd h hts
        · exact absurd h hps
        · exact h
      have hNP : ¬ ts <+: ps := by simpa using not_isPrefix_of_head?_ne hts hps hne []
      have hPN : ¬ ps <+: ts := by simpa using not_isPrefix_of_head?_ne hps hts (Ne.symm hne) []
      have hneq : ts ≠ ps := fun h => hNP (h ▸ List.prefix_refl _)
      simp [hts, hps, compareSpec, hNP, hPN, hneq]
  · by_cases hta : ta = []
    · -- the node path ends inside the prefix
      subst hta
      simp [hpa, compareSpec, not_append_isPrefix hpa]
      -- the full path is one component longer exactly when one prefix component and no suffix
      -- component is left
      have hcond : pa.length + suf.length = 1 ↔ pa.tail = [] ∧ suf = [] := by
        cases pa with
        | nil => exact absurd rfl hpa
        | cons x xs =>
          simp only [List.length_cons, List.tail_cons, ← List.length_eq_zero_iff]
          omega
      simp only [hcond]
    · -- the prefix and the node path differ
      have hne : ta.head? ≠ pa.head? := by
        rcases hstop with h | h | h
        · exact absurd h hta
        · exact absurd h hpa
        · exact h
      have h1 : ¬ ta <+: pa ++ suf := not_isPrefix_of_head?_ne hta hpa hne suf
      have h2 : ¬ pa <+: ta := by simpa using not_isPrefix_of_head?_ne hpa hta (Ne.symm hne) []
      have h3 : ¬ pa ++ suf <+: ta := fun h => h2 ((List.prefix_append pa suf).trans h)
      have hneq : ta ≠ pa ++ suf := fun h => h1 (h ▸ List.prefix_refl _)
      simp [hta, hpa, compareSpec, h1, h2, h3, hneq]

/-! ## `PropertyDecoder::ResolvePath` -/

/-- `PropertyDecoder::PathResolveError`. -/
inductive PathResolveError
  | kNoAliases
  | kBadAlias
deriving DecidableEq, Repr

/-- `PropertyValue::AsString`: the bytes without their NUL terminator; `none` when they are
empty or do not end in NUL. -/
def AsString (bytes : List Char) : Option (List Char) :=
  if bytes.isEmpty || bytes.getLast? != some '\x00' then none else some bytes.dropLast

/-- The loop of `ResolvePath` over the properties of `/aliases`: the first one named by the
alias decides. -/
def lookupAlias (aliases : List (List Char × List Char)) (alias_ suffix : List Char) :
    Except PathResolveError ResolvedPath :=
  match aliases.find? (fun property => property.1 == alias_) with
  | none => .error .kBadAlias
  | some (_, value) =>
    match AsString value with
    | some abs_path => if abs_path.isEmpty then .error .kBadAlias else .ok ⟨abs_path, suffix⟩
    | none => .error .kBadAlias

/-- `PropertyDecoder::ResolvePath(maybe_aliased_path)`, with the properties of `/aliases` as
name and value pairs, `none` when the decoder has no aliases. -/
def ResolvePath (aliases_ : Option (List (List Char × List Char)))
    (maybe_aliased_path : List Char) : Except PathResolveError ResolvedPath :=
  match maybe_aliased_path with
  | [] => .ok ⟨[], []⟩
  | c :: _ =>
    if c ≠ '/' then
      match aliases_ with
      | none => .error .kNoAliases
      | some aliases =>
        let alias_ := maybe_aliased_path.take
          ((findFirstOf '/' maybe_aliased_path).getD maybe_aliased_path.length)
        let suffix := maybe_aliased_path.drop alias_.length
        let suffix := if suffix.isEmpty then suffix else suffix.drop 1
        lookupAlias aliases alias_ suffix
    else .ok ⟨maybe_aliased_path, []⟩

/-- What resolving an alias followed by `rest` should give: the value of the first property of
`/aliases` named by the alias, without its NUL terminator, as the prefix and `rest` as the
suffix; `kBadAlias` when there is no such property, or its value is empty or not
NUL-terminated. -/
def resolveAlias (aliases : List (List Char × List Char)) (alias_ rest : List Char) :
    Except PathResolveError ResolvedPath :=
  match aliases.find? (fun property => property.1 == alias_) with
  | some (_, value) =>
    if value.getLast? = some '\x00' ∧ value.dropLast ≠ [] then .ok ⟨value.dropLast, rest⟩
    else .error .kBadAlias
  | none => .error .kBadAlias

theorem findFirstOf_eq_none {sep : Char} {w : List Char} (hw : sep ∉ w) :
    findFirstOf sep w = none := by
  induction w with
  | nil => rfl
  | cons x xs ih =>
    have hx : x ≠ sep := fun h => hw (h ▸ List.mem_cons_self)
    simp [findFirstOf, List.findIdx?_cons, hx] at ih ⊢
    exact ih (fun h => hw (List.mem_cons_of_mem x h))

theorem findFirstOf_append {sep : Char} {w : List Char} (hw : sep ∉ w) (rest : List Char) :
    findFirstOf sep (w ++ sep :: rest) = some w.length := by
  induction w with
  | nil => simp [findFirstOf, List.findIdx?_cons]
  | cons x xs ih =>
    have hx : x ≠ sep := fun h => hw (h ▸ List.mem_cons_self)
    simp [findFirstOf, List.findIdx?_cons, hx] at ih ⊢
    exact ih (fun h => hw (List.mem_cons_of_mem x h))

/-- `AsString` keeps the bytes before a final NUL. -/
theorem asString_eq (bytes : List Char) :
    AsString bytes = if bytes.getLast? = some '\x00' then some bytes.dropLast else none := by
  cases h : bytes.getLast? with
  | none => simp [AsString, h]
  | some b =>
    have hne : bytes ≠ [] := by rintro rfl; simp at h
    by_cases hb : b = '\x00' <;> simp [AsString, h, hb, hne]

theorem lookupAlias_eq (aliases : List (List Char × List Char)) (alias_ suffix : List Char) :
    lookupAlias aliases alias_ suffix = resolveAlias aliases alias_ suffix := by
  unfold lookupAlias resolveAlias
  cases aliases.find? (fun property => property.1 == alias_) with
  | none => rfl
  | some property =>
    obtain ⟨name, value⟩ := property
    simp only [asString_eq]
    by_cases hlast : value.getLast? = some '\x00' <;> simp [hlast]

/-- `ResolvePath` resolves an alias, alone or followed by `/` and a rest, as `resolveAlias`
says: the prefix is the alias's value and the suffix the rest. -/
theorem resolvePath_alias {aliases : List (List Char × List Char)} {alias_ : List Char}
    (halias : alias_ ≠ []) (hslash : '/' ∉ alias_) (rest : List Char) :
    ResolvePath (some aliases) alias_ = resolveAlias aliases alias_ [] ∧
      ResolvePath (some aliases) (alias_ ++ '/' :: rest) = resolveAlias aliases alias_ rest := by
  obtain ⟨c, cs, rfl⟩ := List.exists_cons_of_ne_nil halias
  have hc : c ≠ '/' := fun h => hslash (h ▸ List.mem_cons_self)
  constructor
  · -- no separator: the whole string is the alias, and the suffix is empty
    simp only [ResolvePath, ne_eq, hc, not_false_eq_true, if_true,
      findFirstOf_eq_none hslash, Option.getD_none, List.take_length, List.drop_length,
      List.isEmpty_nil, lookupAlias_eq]
  · -- the alias runs to the first separator, and the suffix starts after it
    have hsome := findFirstOf_append hslash rest
    simp only [List.cons_append] at hsome
    simp only [List.cons_append, ResolvePath, ne_eq, hc, not_false_eq_true, if_true, hsome,
      Option.getD_some, lookupAlias_eq]
    have htake : (c :: (cs ++ '/' :: rest)).take (c :: cs).length = c :: cs := by
      rw [← List.cons_append, List.take_left]
    have hdrop : (c :: (cs ++ '/' :: rest)).drop (c :: cs).length = '/' :: rest := by
      rw [← List.cons_append, List.drop_left]
    rw [htake, hdrop]
    simp

/-- `/aliases` with `alias = "/A/B/D"`. -/
def aliasesABD : List (List Char × List Char) :=
  [(['a', 'l', 'i', 'a', 's'], ['/', 'A', '/', 'B', '/', 'D', '\x00'])]

/-- `alias` and `alias/C` resolve through `/aliases` as `resolveAlias` says. -/
theorem resolvePath_alias_ABD :
    ResolvePath (some aliasesABD) ['a', 'l', 'i', 'a', 's'] = resolveAlias aliasesABD ['a', 'l', 'i', 'a', 's'] [] ∧
      ResolvePath (some aliasesABD) (['a', 'l', 'i', 'a', 's'] ++ '/' :: ['C']) =
        resolveAlias aliasesABD ['a', 'l', 'i', 'a', 's'] ['C'] :=
  resolvePath_alias (by decide) (by decide) ['C']

/-- The node path of `/A/B/D`: the root's empty name, then `A`, `B` and `D`. -/
def nodesABD : List (List Char) := [[], ['A'], ['B'], ['D']]

/-- `alias/C/E` names a node two below `/A/B/D`, but `CompareWith` calls `/A/B/D` its parent. -/
theorem compareWith_alias_grandchild_is_parent :
    ResolvePath (some aliasesABD) ['a', 'l', 'i', 'a', 's', '/', 'C', '/', 'E'] =
        .ok ⟨['/', 'A', '/', 'B', '/', 'D'], ['C', '/', 'E']⟩ ∧
      ResolvedPath.components ⟨['/', 'A', '/', 'B', '/', 'D'], ['C', '/', 'E']⟩ =
        nodesABD ++ [['C'], ['E']] ∧
      NodePath.CompareWith nodesABD ⟨['/', 'A', '/', 'B', '/', 'D'], ['C', '/', 'E']⟩ =
        .kParent := by
  refine ⟨?_, ?_, ?_⟩ <;> decide

end Zircon.Devicetree
