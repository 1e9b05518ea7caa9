import Wms.Ice.IceUtils

/-!
# What becomes of the entries of a sandbox list

The three expressions of `pathName` exclude each other: an absolute path begins
with a slash or with `file:`, a URI with `gsiftp:`, and a relative path has no
two slashes together, which the other two have unless they begin with one. The
order in which they are tried therefore does not matter, and what begins like a
URI is left alone for ever.

The loop is right about every string. An entry that is no string comes out as
the one before it did, which is nothing only where nothing stands before it.
-/

namespace Wms.Ice.IceUtils

open Wms.Lib

/-! ## Paths -/

section
variable {s t x : Text}

/-- The first of the expressions. -/
def IsUri (s : Text) : Prop := s ∈ (Pattern.seq uriFront segment).lang

/-- The second one. -/
def IsRelative (s : Text) : Prop := s ∈ (Pattern.seq directories segment).lang

/-- The third one. -/
def IsAbsolute (s : Text) : Prop := s ∈ (Pattern.seq absFront segment).lang

theorem mem_segment : t ∈ segment.lang ↔ t ≠ [] ∧ '/' ∉ t := by
  rw [segment, Pattern.mem_more_one]
  constructor
  · intro h
    exact ⟨h.1, fun hmem => of_decide_eq_true (h.2 _ hmem) rfl⟩
  · intro h
    exact ⟨h.1, fun c hc => decide_eq_true fun heq => h.2 (heq ▸ hc)⟩

theorem mem_slash : t ∈ slash.lang ↔ t = ['/'] := by
  constructor
  · intro h
    obtain ⟨c, hc, rfl⟩ := h
    rw [of_decide_eq_true hc]
  · intro h
    exact ⟨'/', rfl, h⟩

/-- Directories are names with a slash behind each. -/
theorem mem_directories : x ∈ directories.lang ↔
    ∃ names : List Text, x = names.flatMap (· ++ ['/']) ∧
      ∀ w ∈ names, w ≠ [] ∧ '/' ∉ w := by
  constructor
  · intro hx
    obtain ⟨pieces, rfl, hpieces⟩ := Language.mem_kstar.mp hx
    clear hx
    induction pieces with
    | nil => exact ⟨[], rfl, fun w hw => by cases hw⟩
    | cons y pieces ih =>
        obtain ⟨names, hnames, hall⟩ :=
          ih fun z hz => hpieces z (List.mem_cons_of_mem y hz)
        obtain ⟨w, hw, v, hv, rfl⟩ :=
          Language.mem_mul.mp (hpieces y List.mem_cons_self)
        refine ⟨w :: names, ?_, List.forall_mem_cons.mpr ⟨mem_segment.mp hw, hall⟩⟩
        rw [List.flatten_cons, List.flatMap_cons, hnames, mem_slash.mp hv]
  · rintro ⟨names, rfl, hall⟩
    refine Language.mem_kstar.mpr ⟨names.map (· ++ ['/']), rfl, fun y hy => ?_⟩
    obtain ⟨w, hw, rfl⟩ := List.mem_map.mp hy
    exact Language.mem_mul.mpr
      ⟨w, mem_segment.mpr (hall w hw), ['/'], mem_slash.mpr rfl, rfl⟩

/-- Directories with a slash behind each, and a file name. -/
def IsPath (s : Text) : Prop :=
  ∃ (names : List Text) (name : Text), s = names.flatMap (· ++ ['/']) ++ name ∧
    (∀ w ∈ names, w ≠ [] ∧ '/' ∉ w) ∧ name ≠ [] ∧ '/' ∉ name

theorem isRelative_iff : IsRelative s ↔ IsPath s := by
  constructor
  · intro h
    obtain ⟨x, hx, t, ht, rfl⟩ := Language.mem_mul.mp h
    rw [mem_directories] at hx
    rw [mem_segment] at ht
    obtain ⟨names, rfl, hall⟩ := hx
    exact ⟨names, t, rfl, hall, ht⟩
  · rintro ⟨names, t, rfl, hall, ht⟩
    refine Language.mem_mul.mpr ⟨_, ?_, t, ?_, rfl⟩
    · rw [mem_directories]
      exact ⟨names, rfl, hall⟩
    · rwa [mem_segment]

theorem fileScheme_eq :
    "file://".toList = ['f', 'i', 'l', 'e', ':', '/', '/'] := String.toList_ofList

/-- An absolute path is a slash and a path, with or without `file://`. -/
theorem isAbsolute_iff : IsAbsolute s ↔
    ∃ p, IsPath p ∧ (s = '/' :: p ∨ s = "file:///".toList ++ p) := by
  have hscheme : "file:///".toList = "file://".toList ++ ['/'] := by
    rw [fileScheme_eq]
    exact String.toList_ofList
  constructor
  · intro h
    obtain ⟨x, hx, t, ht, rfl⟩ := Language.mem_mul.mp h
    obtain ⟨u, hu, v, hv, rfl⟩ := Language.mem_mul.mp hx
    obtain ⟨y, hy, z, hz, rfl⟩ := Language.mem_mul.mp hv
    have hpath : IsPath (z ++ t) := by
      rw [← isRelative_iff]
      exact Language.mem_mul.mpr ⟨z, hz, t, ht, rfl⟩
    refine ⟨z ++ t, hpath, ?_⟩
    rw [mem_slash.mp hy]
    rcases Pattern.mem_optional.mp hu with hu | rfl
    · right
      rw [Pattern.mem_word.mp hu, hscheme]
      simp
    · exact .inl rfl
  · rintro ⟨p, hpath, hs⟩
    rw [← isRelative_iff] at hpath
    obtain ⟨z, hz, t, ht, rfl⟩ := Language.mem_mul.mp hpath
    have hafter : '/' :: z ∈ (Pattern.seq slash directories).lang :=
      Language.mem_mul.mpr ⟨['/'], mem_slash.mpr rfl, z, hz, rfl⟩
    rcases hs with rfl | rfl
    · refine Language.mem_mul.mpr ⟨'/' :: z, ?_, t, ht, rfl⟩
      exact Language.mem_mul.mpr
        ⟨[], Pattern.mem_optional.mpr (.inr rfl), _, hafter, rfl⟩
    · refine Language.mem_mul.mpr ⟨"file://".toList ++ '/' :: z, ?_, t, ht, ?_⟩
      · exact Language.mem_mul.mpr ⟨_,
          Pattern.mem_optional.mpr (.inl (Pattern.mem_word.mpr rfl)), _, hafter, rfl⟩
      · rw [hscheme]
        simp

theorem directories_end (hx : x ∈ directories.lang) :
    x = [] ∨ ∃ y, x = y ++ ['/'] := by
  rw [mem_directories] at hx
  obtain ⟨names, rfl, -⟩ := hx
  cases names using List.reverseRecOn with
  | nil => exact Or.inl rfl
  | append_singleton names w =>
      right
      rw [List.flatMap_append, List.flatMap_singleton, ← List.append_assoc]
      exact ⟨_, rfl⟩

/-- A relative path neither begins with a slash nor has two of them together. -/
theorem IsRelative.single (h : IsRelative s) :
    Single '/' s ∧ s.head? ≠ some '/' := by
  rw [isRelative_iff] at h
  obtain ⟨names, t, rfl, hall, hne, hslash⟩ := h
  induction names with
  | nil =>
      refine ⟨single_of_not_mem hslash, fun hhead => ?_⟩
      exact hslash (List.mem_of_mem_head? hhead)
  | cons w names ih =>
      obtain ⟨⟨hw, hw'⟩, hrest⟩ := List.forall_mem_cons.mp hall
      obtain ⟨hsingle, hhead⟩ := ih hrest
      have hsplit : (w :: names).flatMap (· ++ ['/']) ++ t =
          w ++ '/' :: (names.flatMap (· ++ ['/']) ++ t) := by
        rw [List.flatMap_cons, List.append_assoc, List.append_assoc]
        rfl
      rw [hsplit]
      refine ⟨hsingle.append_cons hw' hhead, ?_⟩
      cases w with
      | nil => exact absurd rfl hw
      | cons c w =>
          intro hc
          exact hw' (Option.some.inj hc ▸ List.mem_cons_self)

/-- What an absolute path begins with. -/
theorem IsAbsolute.head (h : IsAbsolute s) : s.head? = some '/' ∨ s.head? = some 'f' := by
  rw [isAbsolute_iff] at h
  obtain ⟨p, -, rfl | rfl⟩ := h
  · exact .inl rfl
  · exact .inr rfl

/-- The beginning of a URI. -/
def gsiftp : Text := "gsiftp://".toList

theorem gsiftp_eq : gsiftp = ['g', 's', 'i', 'f', 't', 'p', ':', '/', '/'] :=
  String.toList_ofList

theorem port_slash {port : Text}
    (h : port ∈ (Pattern.optional
      (.seq (.one (· = ':')) (.more (.one Char.isDigit)))).lang) : '/' ∉ port := by
  rcases Pattern.mem_optional.mp h with h | rfl
  · obtain ⟨c, hc, digits, hdigits, rfl⟩ := Language.mem_mul.mp h
    obtain ⟨a, ha, rfl⟩ := hc
    obtain rfl := of_decide_eq_true ha
    intro hmem
    rcases List.mem_cons.mp hmem with hcolon | hmem
    · exact absurd hcolon (by decide)
    · exact absurd ((Pattern.mem_more_one.mp hdigits).2 _ hmem) (by decide)
  · exact List.not_mem_nil

/-- A URI has a host, with or without a port, and a path. -/
theorem isUri_iff : IsUri s ↔
    ∃ host p, host ≠ [] ∧ '/' ∉ host ∧ IsPath p ∧ s = gsiftp ++ host ++ '/' :: p := by
  constructor
  · intro h
    obtain ⟨x, hx, t, ht, rfl⟩ := Language.mem_mul.mp h
    obtain ⟨u, hu, v, hv, rfl⟩ := Language.mem_mul.mp hx
    obtain ⟨host, hhost, w, hw, rfl⟩ := Language.mem_mul.mp hv
    obtain ⟨port, hport, y, hy, rfl⟩ := Language.mem_mul.mp hw
    obtain ⟨c, hc, z, hz, rfl⟩ := Language.mem_mul.mp hy
    obtain ⟨hne, hslash⟩ := mem_segment.mp hhost
    have hpath : IsPath (z ++ t) := by
      rw [← isRelative_iff]
      exact Language.mem_mul.mpr ⟨z, hz, t, ht, rfl⟩
    refine ⟨host ++ port, z ++ t, fun hnil => hne (List.append_eq_nil_iff.mp hnil).1,
      fun hmem => ?_, hpath, ?_⟩
    · rcases List.mem_append.mp hmem with hmem | hmem
      · exact hslash hmem
      · exact port_slash hport hmem
    · have hword : u = gsiftp := Pattern.mem_word.mp hu
      rw [hword, mem_slash.mp hc]
      simp
  · rintro ⟨host, p, hne, hslash, hpath, rfl⟩
    rw [← isRelative_iff] at hpath
    obtain ⟨z, hz, t, ht, rfl⟩ := Language.mem_mul.mp hpath
    refine Language.mem_mul.mpr ⟨gsiftp ++ (host ++ '/' :: z), ?_, t, ht, by simp⟩
    refine Language.mem_mul.mpr ⟨gsiftp, Pattern.mem_word.mpr rfl, _, ?_, rfl⟩
    refine Language.mem_mul.mpr ⟨host, mem_segment.mpr ⟨hne, hslash⟩, '/' :: z, ?_, rfl⟩
    refine Language.mem_mul.mpr
      ⟨[], Pattern.mem_optional.mpr (.inr rfl), '/' :: z, ?_, rfl⟩
    exact Language.mem_mul.mpr ⟨['/'], mem_slash.mpr rfl, z, hz, rfl⟩

theorem IsUri.begins (h : IsUri s) : gsiftp <+: s := by
  rw [isUri_iff] at h
  obtain ⟨host, p, -, -, -, rfl⟩ := h
  rw [List.append_assoc]
  exact List.prefix_append _ _

theorem not_relative_of_gsiftp (h : gsiftp <+: s) : ¬ IsRelative s := by
  intro hrel
  refine hrel.single.1.no_pair (List.IsInfix.trans ?_ h.isInfix)
  rw [gsiftp_eq]
  exact ⟨['g', 's', 'i', 'f', 't', 'p', ':'], [], rfl⟩

theorem not_absolute_of_gsiftp (h : gsiftp <+: s) : ¬ IsAbsolute s := by
  intro habs
  obtain ⟨r, rfl⟩ := h
  have hhead := habs.head
  rw [gsiftp_eq] at hhead
  rcases hhead with hhead | hhead
  · cases hhead
  · cases hhead

theorem not_relative_of_absolute (h : IsAbsolute s) : ¬ IsRelative s := by
  intro hrel
  rw [isAbsolute_iff] at h
  obtain ⟨p, -, rfl | rfl⟩ := h
  · exact hrel.single.2 rfl
  · exact hrel.single.1.no_pair ⟨['f', 'i', 'l', 'e', ':'], '/' :: p, rfl⟩

/-! ### File names -/

theorem baseName_segment (hx : x = [] ∨ ∃ y, x = y ++ ['/']) (ht : t ∈ segment.lang) :
    baseName (x ++ t) = t := by
  rcases hx with rfl | ⟨y, rfl⟩
  · exact baseName_of_not_mem (mem_segment.mp ht).2
  · rw [List.append_assoc]
    exact baseName_below y (mem_segment.mp ht).2

theorem absFront_end (hx : x ∈ absFront.lang) : ∃ y, x = y ++ ['/'] := by
  obtain ⟨u, -, v, hv, rfl⟩ := Language.mem_mul.mp hx
  obtain ⟨y, hy, z, hz, rfl⟩ := Language.mem_mul.mp hv
  rw [mem_slash.mp hy]
  rcases directories_end hz with rfl | ⟨z, rfl⟩
  · exact ⟨u, by simp⟩
  · exact ⟨u ++ '/' :: z, by simp⟩

/-! ### The three expressions -/

theorem lastGroup_none {front : Pattern Char}
    (h : s ∉ (Pattern.seq front segment).lang) :
    Pattern.lastGroup front segment s = none := by
  rw [← Pattern.lastGroup_isSome, Bool.not_eq_true, Option.isSome_eq_false_iff,
    Option.isNone_iff_eq_none] at h
  exact h

/-- The last group is the file name. -/
theorem lastGroup_name {front : Pattern Char}
    (hend : ∀ x ∈ front.lang, x = [] ∨ ∃ y, x = y ++ ['/'])
    (h : s ∈ (Pattern.seq front segment).lang) :
    Pattern.lastGroup front segment s = some (baseName s) := by
  obtain ⟨t, ht⟩ := Option.isSome_iff_exists.mp (Pattern.lastGroup_isSome.mpr h)
  obtain ⟨x, hs, hx, hseg⟩ := Pattern.lastGroup_some ht
  rw [ht, hs, baseName_segment (hend x hx) hseg]

theorem pathName_relative (h : IsRelative s) :
    pathName s = ⟨s, .relative, baseName s⟩ := by
  have huri : ¬ IsUri s := fun hu => not_relative_of_gsiftp hu.begins h
  exact pathName_relative_of (lastGroup_none huri)
    (lastGroup_name (fun x hx => directories_end hx) h)

theorem pathName_absolute (h : IsAbsolute s) :
    pathName s = ⟨s, .absolute, baseName s⟩ := by
  have huri : ¬ IsUri s := fun hu => not_absolute_of_gsiftp hu.begins h
  exact pathName_absolute_of (lastGroup_none huri)
    (lastGroup_none (not_relative_of_absolute h))
    (lastGroup_name (fun x hx => Or.inr (absFront_end hx)) h)

theorem pathName_other (hrel : ¬ IsRelative s) (habs : ¬ IsAbsolute s) :
    (pathName s).pathType = .uri ∨ (pathName s).pathType = .invalid :=
  pathName_other_of (lastGroup_none hrel) (lastGroup_none habs)

end

/-! ## One entry -/

section
variable {a r s : Text}

theorem newPathOf_relative (h : IsRelative s) :
    newPathOf a r s = r ++ '/' :: baseName s :=
  newPathOf_relative_of (pathName_relative h)

theorem newPathOf_absolute (h : IsAbsolute s) :
    newPathOf a r s = a ++ '/' :: baseName s :=
  newPathOf_absolute_of (pathName_absolute h)

theorem newPathOf_other (hrel : ¬ IsRelative s) (habs : ¬ IsAbsolute s) :
    newPathOf a r s = s :=
  newPathOf_kept (pathName_other hrel habs)

/-- What becomes of an entry: the path a string stands for, and nothing of an
entry that is no string. -/
def Becomes (a r : Text) : Entry → Text → Prop
  | .string s, p =>
      (IsAbsolute s → p = a ++ '/' :: baseName s) ∧
        (IsRelative s → p = r ++ '/' :: baseName s) ∧
        (¬ IsAbsolute s → ¬ IsRelative s → p = s) ∧ baseName p = baseName s
  | .other _, p => p = []

theorem becomes_newPathOf (a r s : Text) : Becomes a r (.string s) (newPathOf a r s) := by
  refine ⟨newPathOf_absolute, newPathOf_relative,
    fun habs hrel => newPathOf_other hrel habs, ?_⟩
  by_cases hrel : IsRelative s
  · rw [newPathOf_relative hrel, baseName_below r (slash_not_mem_baseName s)]
  · by_cases habs : IsAbsolute s
    · rw [newPathOf_absolute habs, baseName_below a (slash_not_mem_baseName s)]
    · rw [newPathOf_other hrel habs]

theorem newPathOf_eq_nil : newPathOf a r s = [] ↔ s = [] := by
  constructor
  · intro h
    by_cases hrel : IsRelative s
    · rw [newPathOf_relative hrel] at h
      exact absurd h (by simp)
    · by_cases habs : IsAbsolute s
      · rw [newPathOf_absolute habs] at h
        exact absurd h (by simp)
      · rwa [newPathOf_other hrel habs] at h
  · intro h
    rw [h]
    refine newPathOf_other (fun hrel => ?_) (fun habs => ?_)
    · obtain ⟨x, -, t, ht, hnil⟩ := Language.mem_mul.mp hrel
      exact (mem_segment.mp ht).1 (List.append_eq_nil_iff.mp hnil).2
    · rcases habs.head with hhead | hhead
      · cases hhead
      · cases hhead

/-! ## The loop -/

/-- Where an entry is no string, the last string before it is empty or there is
none; `last` is the one before the list. -/
def NothingCarried : Text → List Entry → Prop
  | _, [] => True
  | _, .string s :: entries => NothingCarried s entries
  | last, .other _ :: entries => last = [] ∧ NothingCarried last entries

theorem forall₂_newList_iff {a r newPath last : Text} {entries : List Entry}
    (h : newPath = [] ↔ last = []) :
    List.Forall₂ (Becomes a r) entries (newList a r newPath entries) ↔
      NothingCarried last entries := by
  induction entries generalizing newPath last with
  | nil => exact iff_of_true List.Forall₂.nil trivial
  | cons e entries ih =>
      cases e with
      | string s =>
          rw [newList_string, NothingCarried, List.forall₂_cons, ← ih newPathOf_eq_nil]
          constructor
          · intro hboth
            exact hboth.2
          · intro hrest
            exact ⟨becomes_newPathOf a r s, hrest⟩
      | other expr =>
          rw [newList_other, NothingCarried, List.forall₂_cons, ← ih h, ← h]
          rfl

/-! ## Again -/

/-- What no call changes, whatever the bases are. -/
def Stays (p : Text) : Prop := ∀ a r, newPathOf a r p = p

theorem stays_of_gsiftp {p : Text} (h : gsiftp <+: p) : Stays p := fun _ _ =>
  newPathOf_other (not_relative_of_gsiftp h) (not_absolute_of_gsiftp h)

theorem stays_newPathOf (ha : gsiftp <+: a) (hr : gsiftp <+: r) (s : Text) :
    Stays (newPathOf a r s) := by
  by_cases hrel : IsRelative s
  · rw [newPathOf_relative hrel]
    exact stays_of_gsiftp (hr.trans (List.prefix_append _ _))
  · by_cases habs : IsAbsolute s
    · rw [newPathOf_absolute habs]
      exact stays_of_gsiftp (ha.trans (List.prefix_append _ _))
    · rw [newPathOf_other hrel habs]
      intro a' r'
      exact newPathOf_other hrel habs

theorem stays_newList (ha : gsiftp <+: a) (hr : gsiftp <+: r) {newPath : Text}
    (hpath : Stays newPath) (entries : List Entry) :
    ∀ p ∈ newList a r newPath entries, Stays p := by
  induction entries generalizing newPath with
  | nil =>
      intro p hp
      cases hp
  | cons e entries ih =>
      cases e with
      | string s =>
          rw [newList_string]
          exact List.forall_mem_cons.mpr
            ⟨stays_newPathOf ha hr s, ih (stays_newPathOf ha hr s)⟩
      | other expr =>
          rw [newList_other]
          exact List.forall_mem_cons.mpr ⟨hpath, ih hpath⟩

theorem newList_literals {newPath : Text} {paths : List Text}
    (h : ∀ p ∈ paths, Stays p) :
    newList a r newPath (paths.map .string) = paths := by
  induction paths generalizing newPath with
  | nil => rfl
  | cons p paths ih =>
      obtain ⟨hp, hrest⟩ := List.forall_mem_cons.mp h
      rw [List.map_cons, newList_string, ih hrest, hp]

end

/-! ## The bases -/

theorem gsiftp_defaultURI (hostName : Text) (path : Option Value) :
    gsiftp <+: defaultURI hostName path := by
  unfold defaultURI gsiftp
  simp only [List.append_assoc]
  exact List.prefix_append _ _

theorem trimRightIf_append {p : Char → Bool} {c : Char} (h : p c = false) (x y : Text) :
    trimRightIf p (x ++ c :: y) = x ++ c :: trimRightIf p y := by
  have hreverse : (x ++ c :: y).reverse = y.reverse ++ c :: x.reverse := by simp
  have hc : ¬ p c = true := by
    rw [h]
    exact Bool.false_ne_true
  have hdrop : (y.reverse ++ c :: x.reverse).dropWhile p =
      y.reverse.dropWhile p ++ c :: x.reverse := by
    rw [List.dropWhile_append]
    split
    next hnil =>
        rw [List.isEmpty_iff.mp hnil, List.dropWhile_cons_of_neg hc]
        rfl
    next => rfl
  rw [trimRightIf, hreverse, hdrop, trimRightIf]
  simp

/-- The base that the JDL gives is a URI with a host, or there is none. -/
def GsiftpBase (jdl : Jdl) : Prop :=
  jdl.inputSandboxBaseURI = none ∨
    ∃ c rest, c ≠ '/' ∧ c ≠ '"' ∧
      jdl.inputSandboxBaseURI = some (.string (gsiftp ++ c :: rest))

theorem gsiftp_isbURI {hostName : Text} {jdl : Jdl} (h : GsiftpBase jdl) :
    gsiftp <+: isbURI hostName jdl := by
  rcases h with hnone | ⟨c, rest, hslash, hquote, hbase⟩
  · rw [isbURI, hnone]
    exact gsiftp_defaultURI hostName _
  · have hleft : (gsiftp ++ c :: rest).dropWhile (· = '"') = gsiftp ++ c :: rest := by
      rw [gsiftp_eq]
      exact List.dropWhile_cons_of_neg (by decide)
    have htrim : trimIf (· = '"') (gsiftp ++ c :: rest) =
        gsiftp ++ c :: trimRightIf (· = '"') rest := by
      rw [trimIf, hleft, ← trimRightIf, trimRightIf_append (decide_eq_false hquote)]
    have hattr : attrString jdl.inputSandboxBaseURI = some (gsiftp ++ c :: rest) := by
      rw [hbase, attrString]
    have hbase : isbURI hostName jdl =
        trimRightIf (· = '/') (trimIf (· = '"') (gsiftp ++ c :: rest)) := by
      simp only [isbURI, hattr]
    rw [hbase, htrim, trimRightIf_append (decide_eq_false hslash)]
    exact List.prefix_append _ _

/-! ## The two functions -/

section
variable {hostName : Text} {jdl : Jdl} {entries : List Entry}

/-- A JDL whose lists have been rewritten. -/
structure Settled (jdl : Jdl) : Prop where
  base : attrString jdl.inputSandboxBaseURI = none
  isb : ∀ entries, jdl.inputSandbox = some (.list entries) →
    ∃ paths : List Text, entries = paths.map .string ∧ ∀ p ∈ paths, Stays p
  osb : jdl.outputSandbox.isSome = true → ∀ entries,
    jdl.outputSandboxDestURI = some (.list entries) →
      ∃ paths : List Text, entries = paths.map .string ∧ ∀ p ∈ paths, Stays p
  dest : jdl.outputSandbox.isSome = true →
    jdl.outputSandboxBaseDestURI.isSome = jdl.outputSandboxDestURI.isNone

theorem Settled.updateIsbList (h : Settled jdl) : updateIsbList hostName jdl = jdl := by
  have hbase : (attrString jdl.inputSandboxBaseURI).isSome = false := by
    rw [h.base]
    rfl
  cases hlist : attrList jdl.inputSandbox with
  | none => simp [IceUtils.updateIsbList, hbase, hlist]
  | some entries =>
      obtain ⟨paths, rfl, hstays⟩ := h.isb entries (attrList_eq.mp hlist)
      simp only [IceUtils.updateIsbList, hbase, Bool.false_eq_true, if_false, hlist,
        newList_literals hstays, literals]
      rw [← attrList_eq.mp hlist]

theorem Settled.updateOsbList (h : Settled jdl) :
    (updateOsbList hostName jdl).2 = jdl := by
  cases hout : jdl.outputSandbox with
  | none => simp [IceUtils.updateOsbList, hout]
  | some v =>
      have hdest := h.dest (by rw [hout]; rfl)
      cases huri : jdl.outputSandboxDestURI with
      | none =>
          rw [huri] at hdest
          have hnone : jdl.outputSandboxBaseDestURI.isNone = false := by
            rw [Option.isNone_eq_false_iff]
            exact hdest
          simp [IceUtils.updateOsbList, hout, huri, hnone]
      | some w =>
          rw [huri] at hdest
          have hnone : jdl.outputSandboxBaseDestURI = none :=
            Option.not_isSome_iff_eq_none.mp (by rw [hdest]; exact Bool.false_ne_true)
          cases hlist : attrList jdl.outputSandboxDestURI with
          | none =>
              rw [huri] at hlist
              simp only [IceUtils.updateOsbList, hout, huri, hlist, Option.isNone_some,
                Option.isSome_some, Bool.false_eq_true, if_false, if_true]
              cases jdl
              cases hout
              cases huri
              cases hnone
              rfl
          | some entries =>
              obtain ⟨paths, rfl, hstays⟩ :=
                h.osb (by rw [hout]; rfl) entries (attrList_eq.mp hlist)
              rw [huri] at hlist
              simp only [IceUtils.updateOsbList, hout, huri, hlist, Option.isNone_some,
                Option.isSome_some, Bool.false_eq_true, if_false, if_true,
                newList_literals hstays, literals]
              cases jdl
              cases hout
              cases huri
              cases hnone
              cases attrList_eq.mp hlist
              rfl

variable (hostName) in
/-- What the first function does to the list and to the base. -/
theorem updateIsbList_input (h : GsiftpBase jdl) :
    attrString (IceUtils.updateIsbList hostName jdl).inputSandboxBaseURI = none ∧
      ∀ entries, (IceUtils.updateIsbList hostName jdl).inputSandbox =
        some (.list entries) →
        ∃ paths : List Text, entries = paths.map .string ∧ ∀ p ∈ paths, Stays p := by
  constructor
  · cases hbase : attrString jdl.inputSandboxBaseURI with
    | none =>
        cases hlist : attrList jdl.inputSandbox with
        | none => simp [IceUtils.updateIsbList, hbase, hlist]
        | some es => simp [IceUtils.updateIsbList, hbase, hlist]
    | some base =>
        cases hlist : attrList jdl.inputSandbox with
        | none => simp [IceUtils.updateIsbList, hbase, hlist]
        | some es => simp [IceUtils.updateIsbList, hbase, hlist]
  · intro entries hentries
    cases hlist : attrList jdl.inputSandbox with
    | none =>
        have hsame : (IceUtils.updateIsbList hostName jdl).inputSandbox =
            jdl.inputSandbox := by
          by_cases hbase : (attrString jdl.inputSandboxBaseURI).isSome = true
          · simp [IceUtils.updateIsbList, hbase, hlist]
          · simp [IceUtils.updateIsbList, hbase, hlist]
        rw [hsame, ← attrList_eq, hlist] at hentries
        cases hentries
    | some es =>
        rw [updateIsbList_list (attrList_eq.mp hlist)] at hentries
        cases hentries
        exact ⟨_, rfl, stays_newList (gsiftp_defaultURI hostName _) (gsiftp_isbURI h)
          (fun a r => newPathOf_eq_nil.mpr rfl) es⟩

variable (hostName) in
/-- What the second function does, where it does anything. -/
theorem updateOsbList_output (hout : jdl.outputSandbox.isSome = true) :
    (∀ entries, (IceUtils.updateOsbList hostName jdl).2.outputSandboxDestURI =
        some (.list entries) →
        ∃ paths : List Text, entries = paths.map .string ∧ ∀ p ∈ paths, Stays p) ∧
      (IceUtils.updateOsbList hostName jdl).2.outputSandboxBaseDestURI.isSome =
        (IceUtils.updateOsbList hostName jdl).2.outputSandboxDestURI.isNone := by
  have hsome : jdl.outputSandbox.isNone = false := by
    rw [Option.isNone_eq_false_iff]
    exact hout
  cases huri : jdl.outputSandboxDestURI with
  | none =>
      cases hbase : jdl.outputSandboxBaseDestURI with
      | none => simp [IceUtils.updateOsbList, hsome, huri, hbase]
      | some v => simp [IceUtils.updateOsbList, hsome, huri, hbase]
  | some w =>
      cases hlist : attrList jdl.outputSandboxDestURI with
      | none =>
          rw [huri] at hlist
          have hno : ∀ entries, w ≠ .list entries := by
            rintro entries rfl
            cases hlist
          simp [IceUtils.updateOsbList, hsome, huri, hlist, hno]
      | some es =>
          constructor
          · intro entries hentries
            rw [updateOsbList_list hout (attrList_eq.mp hlist)] at hentries
            cases hentries
            have hbegins := gsiftp_defaultURI hostName jdl.outputSandboxPath
            exact ⟨_, rfl, stays_newList hbegins hbegins
              (fun a r => newPathOf_eq_nil.mpr rfl) es⟩
          · rw [huri] at hlist
            simp [IceUtils.updateOsbList, hsome, huri, hlist]

variable (hostName) (jdl) in
theorem updateOsbList_input :
    (IceUtils.updateOsbList hostName jdl).2.inputSandbox = jdl.inputSandbox ∧
      (IceUtils.updateOsbList hostName jdl).2.inputSandboxBaseURI =
        jdl.inputSandboxBaseURI ∧
      (IceUtils.updateOsbList hostName jdl).2.outputSandbox = jdl.outputSandbox := by
  unfold IceUtils.updateOsbList
  split
  · exact ⟨rfl, rfl, rfl⟩
  · split
    · dsimp only
      split
      · exact ⟨rfl, rfl, rfl⟩
      · exact ⟨rfl, rfl, rfl⟩
    · split
      · exact ⟨rfl, rfl, rfl⟩
      · exact ⟨rfl, rfl, rfl⟩

variable (hostName) in
/-- Both functions leave lists that they do not change any more. -/
theorem settled_updateLists (h : GsiftpBase jdl) :
    Settled (updateLists hostName jdl) := by
  obtain ⟨hbase, hisb⟩ := updateIsbList_input hostName h
  obtain ⟨hin, hbase', hout⟩ :=
    updateOsbList_input hostName (IceUtils.updateIsbList hostName jdl)
  rw [← hbase'] at hbase
  rw [← hin] at hisb
  constructor
  · exact hbase
  · exact hisb
  · intro hsome
    rw [updateLists, hout] at hsome
    exact (updateOsbList_output hostName hsome).1
  · intro hsome
    rw [updateLists, hout] at hsome
    exact (updateOsbList_output hostName hsome).2

/-- The lists of a JDL are rewritten entry by entry, and once for all where the
base is a URI. -/
structure RewritesLists (hostName : Text) (jdl : Jdl) : Prop where
  isb : ∀ entries, jdl.inputSandbox = some (.list entries) →
    ∃ paths, (IceUtils.updateIsbList hostName jdl).inputSandbox =
        some (literals paths) ∧
      List.Forall₂ (Becomes (defaultIsbURI hostName jdl) (isbURI hostName jdl))
        entries paths
  osb : ∀ entries, jdl.outputSandbox.isSome = true →
    jdl.outputSandboxDestURI = some (.list entries) →
    ∃ paths, (IceUtils.updateOsbList hostName jdl).2.outputSandboxDestURI =
        some (literals paths) ∧
      List.Forall₂ (Becomes (defaultOsbdURI hostName jdl) (defaultOsbdURI hostName jdl))
        entries paths
  again : GsiftpBase jdl →
    updateLists hostName (updateLists hostName jdl) = updateLists hostName jdl

theorem literals_injective {paths paths' : List Text}
    (h : literals paths = literals paths') : paths = paths' := by
  refine List.map_injective_iff.mpr ?_ (Value.list.inj h)
  intro p p' hp
  exact Entry.string.inj hp

theorem RewritesLists.isb_carried (h : RewritesLists hostName jdl)
    (hlist : jdl.inputSandbox = some (.list entries)) : NothingCarried [] entries := by
  obtain ⟨paths, hpaths, hall⟩ := h.isb entries hlist
  rw [updateIsbList_list hlist] at hpaths
  rw [← literals_injective (Option.some.inj hpaths)] at hall
  exact (forall₂_newList_iff Iff.rfl).mp hall

theorem RewritesLists.osb_carried (h : RewritesLists hostName jdl)
    (hout : jdl.outputSandbox.isSome = true)
    (hlist : jdl.outputSandboxDestURI = some (.list entries)) :
    NothingCarried [] entries := by
  obtain ⟨paths, hpaths, hall⟩ := h.osb entries hout hlist
  rw [updateOsbList_list hout hlist] at hpaths
  rw [← literals_injective (Option.some.inj hpaths)] at hall
  exact (forall₂_newList_iff Iff.rfl).mp hall

end

/-- In no list is there an entry that is no string behind one that has a path. -/
theorem rewritesLists_iff (hostName : Text) (jdl : Jdl) :
    RewritesLists hostName jdl ↔
      (∀ entries, jdl.inputSandbox = some (.list entries) →
        NothingCarried [] entries) ∧
      (∀ entries, jdl.outputSandbox.isSome = true →
        jdl.outputSandboxDestURI = some (.list entries) →
        NothingCarried [] entries) := by
  constructor
  · intro h
    exact ⟨fun _ hlist => h.isb_carried hlist, fun _ hout hlist => h.osb_carried hout hlist⟩
  · intro h
    constructor
    · intro entries hlist
      exact ⟨_, updateIsbList_list hlist,
        (forall₂_newList_iff Iff.rfl).mpr (h.1 entries hlist)⟩
    · intro entries hout hlist
      exact ⟨_, updateOsbList_list hout hlist,
        (forall₂_newList_iff Iff.rfl).mpr (h.2 entries hout hlist)⟩
    · intro hbase
      have hsettled := settled_updateLists hostName hbase
      rw [updateLists, hsettled.updateIsbList, hsettled.updateOsbList]

/-- A path and a number. -/
def pathAndNumber : Jdl where
  inputSandbox := some (.list [.string ['/', 'a', '/', 'b'], .other ['3']])

/-- The number comes out as the path does. -/
theorem not_rewritesLists_pathAndNumber : ¬ ∀ (hostName : Text) (jdl : Jdl),
    RewritesLists hostName jdl := by
  intro h
  obtain ⟨hempty, -⟩ := (h ['h'] pathAndNumber).isb_carried rfl
  cases hempty

end Wms.Ice.IceUtils
