import Wms.Core.Sandbox

/-!
# Token files

A token has one of two names for each number, the final one and the temporary
one with a dot at its end. The number can be read back from either, the names
are all different, and the filter of the directory passes lets both through.
What a renaming or a creation does to the token files of a directory follows
from that.

Numbers are read as floats, so all of this is about numbers a float can hold.
-/

namespace Wms.Core.Sandbox

open Wms.Lib Wms.Core

/-! ## Names -/

theorem matchesPrefix_append (pattern rest : Text) :
    matchesPrefix pattern (pattern ++ rest) = true := by
  induction pattern with
  | nil => rfl
  | cons p pattern ih =>
      rw [List.cons_append, matchesPrefix, ih]
      simp

theorem reverse_no_underscore {text : Text} (h : '_' ∉ text) :
    ∀ c ∈ text.reverse, decide (c ≠ '_') = true := by
  intro c hc
  rw [List.mem_reverse] at hc
  exact decide_eq_true fun hu => h (hu ▸ hc)

theorem afterLastUnderscore_append (name : Text) {number : Text}
    (h : '_' ∉ number) :
    afterLastUnderscore (name ++ '_' :: number) = number := by
  unfold afterLastUnderscore
  rw [List.reverse_append, List.reverse_cons, List.append_assoc,
    List.takeWhile_append_of_pos (reverse_no_underscore h),
    List.singleton_append, List.takeWhile_cons_of_neg (by simp),
    List.append_nil, List.reverse_reverse]

theorem uptoLastUnderscore_append (name : Text) {number : Text}
    (h : '_' ∉ number) :
    uptoLastUnderscore (name ++ '_' :: number) = name ++ ['_'] := by
  unfold uptoLastUnderscore
  rw [List.reverse_append, List.reverse_cons, List.append_assoc,
    List.dropWhile_append_of_pos (reverse_no_underscore h),
    List.singleton_append, List.dropWhile_cons_of_neg (by simp),
    List.reverse_cons, List.reverse_reverse]

theorem underscore_not_in_decimal (n : ℕ) : '_' ∉ decimal n :=
  Nat.underscore_not_in_toDigits

theorem dot_not_in_decimal (n : ℕ) : '.' ∉ decimal n := by
  intro h
  have hdigit := Nat.isDigit_of_mem_toDigits (by omega) (by omega) h
  exact absurd hdigit (by decide)

theorem decimal_injective {n m : ℕ} (h : decimal n = decimal m) : n = m := by
  have hback := congrArg (fun digits => Nat.ofDigitChars 10 digits 0) h
  simpa [decimal, Nat.ofDigitChars_ten_toDigits] using hback

variable (cfg : Config)

theorem tok_eq (n : ℕ) : tok cfg n = cfg.tokenFile ++ '_' :: decimal n := rfl

theorem tmp_eq (n : ℕ) :
    tmp cfg n = cfg.tokenFile ++ '_' :: (decimal n ++ ['.']) := by
  show (cfg.tokenFile ++ '_' :: decimal n) ++ ['.'] = _
  rw [List.append_assoc, List.cons_append]

theorem underscore_not_in_tmp (n : ℕ) : '_' ∉ decimal n ++ ['.'] := by
  intro h
  rcases List.mem_append.mp h with h | h
  · exact underscore_not_in_decimal n h
  · simp at h

@[simp] theorem afterLastUnderscore_tok (n : ℕ) :
    afterLastUnderscore (tok cfg n) = decimal n :=
  afterLastUnderscore_append _ (underscore_not_in_decimal n)

@[simp] theorem afterLastUnderscore_tmp (n : ℕ) :
    afterLastUnderscore (tmp cfg n) = decimal n ++ ['.'] := by
  rw [tmp_eq]
  exact afterLastUnderscore_append _ (underscore_not_in_tmp n)

/-- The replanner puts the next number behind what is left of the name. -/
theorem uptoLastUnderscore_tok (n m : ℕ) :
    uptoLastUnderscore (tok cfg n) ++ decimal m = tok cfg m := by
  rw [tok_eq, uptoLastUnderscore_append _ (underscore_not_in_decimal n),
    List.append_assoc, List.singleton_append, tok_eq]

theorem uptoLastUnderscore_tmp (n m : ℕ) :
    uptoLastUnderscore (tmp cfg n) ++ decimal m = tok cfg m := by
  rw [tmp_eq, uptoLastUnderscore_append _ (underscore_not_in_tmp n),
    List.append_assoc, List.singleton_append, tok_eq]

theorem tok_injective {n m : ℕ} (h : tok cfg n = tok cfg m) : n = m := by
  have hback := congrArg afterLastUnderscore h
  rw [afterLastUnderscore_tok, afterLastUnderscore_tok] at hback
  exact decimal_injective hback

theorem tmp_injective {n m : ℕ} (h : tmp cfg n = tmp cfg m) : n = m :=
  tok_injective cfg (List.append_cancel_right h)

theorem tok_ne_tmp (n m : ℕ) : tok cfg n ≠ tmp cfg m := by
  intro h
  have hback := congrArg afterLastUnderscore h
  rw [afterLastUnderscore_tok, afterLastUnderscore_tmp] at hback
  exact dot_not_in_decimal n (hback ▸ by simp)

@[simp] theorem isTokenFile_tok (n : ℕ) : isTokenFile cfg (tok cfg n) = true := by
  have h := matchesPrefix_append (cfg.tokenFile ++ ['_']) (decimal n)
  rwa [List.append_assoc] at h

@[simp] theorem isTokenFile_tmp (n : ℕ) : isTokenFile cfg (tmp cfg n) = true := by
  have h := matchesPrefix_append (cfg.tokenFile ++ ['_']) (decimal n ++ ['.'])
  rw [List.append_assoc] at h
  rw [tmp_eq]
  exact h

/-! A file that is taken for a token may have any name of the form, and gets
the next number behind its last underscore. -/

theorem underscore_mem_of_matchesPrefix {pattern text : Text}
    (h : matchesPrefix (pattern ++ ['_']) text = true) : '_' ∈ text := by
  induction pattern generalizing text with
  | nil =>
      cases text with
      | nil => cases h
      | cons c text =>
          have hc : ('_' = '.' ∨ '_' = c) ∧ matchesPrefix [] text = true := by
            simpa [matchesPrefix] using h
          rcases hc.1 with hdot | rfl
          · exact absurd hdot (by decide)
          · exact List.mem_cons_self
  | cons p pattern ih =>
      cases text with
      | nil => cases h
      | cons c text =>
          rw [List.cons_append, matchesPrefix, Bool.and_eq_true] at h
          exact List.mem_cons_of_mem _ (ih h.2)

theorem matchesPrefix_renumbered {pattern name number : Text}
    (h : matchesPrefix (pattern ++ ['_']) (name ++ '_' :: number) = true)
    (hnumber : '_' ∉ number) (rest : Text) :
    matchesPrefix (pattern ++ ['_']) (name ++ '_' :: rest) = true := by
  induction pattern generalizing name with
  | nil =>
      cases name with
      | nil => rfl
      | cons c name =>
          rw [List.nil_append, List.cons_append, matchesPrefix] at h ⊢
          exact h
  | cons p pattern ih =>
      cases name with
      | nil =>
          rw [List.cons_append, List.nil_append, matchesPrefix,
            Bool.and_eq_true] at h
          exact absurd (underscore_mem_of_matchesPrefix h.2) hnumber
      | cons c name =>
          rw [List.cons_append, List.cons_append, matchesPrefix,
            Bool.and_eq_true] at h ⊢
          exact ⟨h.1, ih h.2⟩

theorem split_at_last_underscore {text : Text} (h : '_' ∈ text) :
    ∃ name number, '_' ∉ number ∧ text = name ++ '_' :: number := by
  obtain ⟨number, name, htext, hnumber⟩ :=
    List.eq_append_cons_of_mem (List.mem_reverse.mpr h)
  refine ⟨name.reverse, number.reverse,
    fun hmem => hnumber (List.mem_reverse.mp hmem), ?_⟩
  have hback := congrArg List.reverse htext
  rw [List.reverse_reverse, List.reverse_append, List.reverse_cons,
    List.append_assoc, List.singleton_append] at hback
  exact hback

variable {cfg} in
/-- A token with the next number is one, and its number can be read. -/
theorem renumbered {leaf : Text} (h : isTokenFile cfg leaf = true) (n : ℕ) :
    isTokenFile cfg (uptoLastUnderscore leaf ++ decimal n) = true ∧
      afterLastUnderscore (uptoLastUnderscore leaf ++ decimal n) =
        decimal n := by
  obtain ⟨name, number, hnumber, rfl⟩ :=
    split_at_last_underscore (underscore_mem_of_matchesPrefix h)
  rw [uptoLastUnderscore_append _ hnumber, List.append_assoc,
    List.singleton_append]
  exact ⟨matchesPrefix_renumbered h hnumber _,
    afterLastUnderscore_append _ (underscore_not_in_decimal n)⟩

/-! ## Directories -/

variable {cfg} {dir : List Text} {leaf old new : Text}

theorem mem_dir_of_tokens (h : leaf ∈ tokens cfg dir) : leaf ∈ dir :=
  (List.mem_filter.mp h).1

theorem mem_tokens (hleaf : isTokenFile cfg leaf = true) (h : leaf ∈ dir) :
    leaf ∈ tokens cfg dir := List.mem_filter.mpr ⟨h, hleaf⟩

theorem not_mem_dir (hleaf : isTokenFile cfg leaf = true)
    (h : leaf ∉ tokens cfg dir) : leaf ∉ dir :=
  fun hmem => h (mem_tokens hleaf hmem)

theorem tokens_erase (dir : List Text) (leaf : Text) :
    tokens cfg (dir.erase leaf) = (tokens cfg dir).erase leaf :=
  (List.erase_filter).symm

theorem tokens_place_of_not_mem (hleaf : isTokenFile cfg leaf = true)
    (h : leaf ∉ tokens cfg dir) :
    tokens cfg (place leaf dir) = leaf :: tokens cfg dir := by
  unfold place
  rw [if_neg (not_mem_dir hleaf h)]
  exact List.filter_cons_of_pos hleaf

theorem tokens_place_of_mem (h : leaf ∈ tokens cfg dir) :
    tokens cfg (place leaf dir) = tokens cfg dir := by
  unfold place
  rw [if_pos (mem_dir_of_tokens h)]

/-- The only token, under another name. -/
theorem tokens_rename (hnew : isTokenFile cfg new = true)
    (h : tokens cfg dir = [old]) :
    tokens cfg (place new (dir.erase old)) = [new] := by
  have hrest : tokens cfg (dir.erase old) = [] := by
    rw [tokens_erase, h, List.erase_cons_head]
  rw [tokens_place_of_not_mem hnew (by rw [hrest]; exact List.not_mem_nil), hrest]

/-- A token onto the other one. -/
theorem tokens_replace (h : tokens cfg dir = [old, new]) :
    tokens cfg (place new (dir.erase old)) = [new] := by
  have hrest : tokens cfg (dir.erase old) = [new] := by
    rw [tokens_erase, h, List.erase_cons_head]
  rw [tokens_place_of_mem (by rw [hrest]; exact List.mem_singleton_self new), hrest]

/-- A pass that comes to its end finds the tokens there are. -/
theorem tokens_listed (cfg : Config) {r : Listing} (h : (listed dir r).error = none) :
    List.Perm (tokens cfg (listed dir r).leaves) (tokens cfg dir) := by
  unfold listed at h ⊢
  split
  next e he =>
    rw [he] at h
    cases h
  next he =>
    split
    next hperm => exact (List.isPerm_iff.mp hperm).filter _
    next => exact List.Perm.refl _

/-! ## The URL of a token -/

theorem rfind_short {pattern text : Text} (h : text.length < pattern.length) :
    rfind pattern text = none := by
  induction text with
  | nil =>
      cases pattern with
      | nil => cases h
      | cons p pattern => rfl
  | cons c rest ih =>
      rw [List.length_cons] at h
      have hprefix : pattern.isPrefixOf (c :: rest) = false := by
        rw [Bool.eq_false_iff]
        intro hp
        have hle := (List.isPrefixOf_iff_prefix.mp hp).length_le
        rw [List.length_cons] at hle
        omega
      rw [rfind, ih (by omega), hprefix]
      rfl

theorem rfind_append {pattern : Text} (h : pattern ≠ []) (text : Text) :
    rfind pattern (text ++ pattern) = some text.length := by
  induction text with
  | nil =>
      cases pattern with
      | nil => exact absurd rfl h
      | cons p pattern =>
          rw [List.nil_append, rfind, rfind_short (by simp)]
          have hself : (p :: pattern).isPrefixOf (p :: pattern) = true :=
            List.isPrefixOf_iff_prefix.mpr (List.prefix_refl _)
          rw [hself]
          rfl
  | cons c text ih =>
      rw [List.cons_append, rfind, ih]
      rfl

theorem uptoLast_append {pattern : Text} (h : pattern ≠ []) (text : Text) :
    uptoLast pattern (text ++ pattern) = text := by
  rw [uptoLast, rfind_append h]
  exact List.take_left

/-- Behind the authority comes the path. -/
theorem pathOfUrl_append {protocol authority path : Text}
    (hprotocol : ':' ∉ protocol) (hauthority : '/' ∉ authority)
    (hpath : path.head? = some '/') :
    pathOfUrl (protocol ++ "://".toList ++ authority ++ path) = path := by
  have hscheme : ∀ c ∈ protocol, decide (c ≠ ':') = true :=
    fun c hc => decide_eq_true fun h => hprotocol (h ▸ hc)
  have hhost : ∀ c ∈ authority, decide (c ≠ '/') = true :=
    fun c hc => decide_eq_true fun h => hauthority (h ▸ hc)
  cases path with
  | nil => cases hpath
  | cons c rest =>
      rw [List.head?_cons, Option.some.injEq] at hpath
      subst hpath
      unfold pathOfUrl
      rw [List.append_assoc, List.append_assoc,
        List.dropWhile_append_of_pos hscheme]
      show (authority ++ '/' :: rest).dropWhile (· ≠ '/') = '/' :: rest
      rw [List.dropWhile_append_of_pos hhost]
      exact List.dropWhile_cons_of_neg (by simp)

theorem port_no_slash {url : Url} :
    '/' ∉ url.host ++ (if url.port.isEmpty then [] else ':' :: url.port) := by
  intro h
  rcases List.mem_append.mp h with h | h
  · exact url.host_no_slash h
  · split at h
    · cases h
    · rcases List.mem_cons.mp h with h | h
      · exact absurd h (by decide)
      · exact url.port_no_slash h

/-- A directory above an entry of an absolute path. -/
theorem absolute_dir {url : Url} {base rest : Text} {leaf : Text}
    (h : url.path = base ++ '/' :: rest) :
    (base ++ '/' :: leaf).head? = some '/' := by
  cases base with
  | nil => rfl
  | cons c base =>
      rcases url.path_absolute with hnil | hhead
      · rw [h] at hnil
        cases hnil
      · rw [h] at hhead
        exact hhead

/-- The token that the adapter names is the one of the description's number, in
the directory whose input sandbox the description has. -/
theorem resolveToken_path (cfg : Config) {localHostname token : Text} {ad : Jdl}
    (hisb : ∀ url, inputUrl localHostname ad.inputSandboxPath = some url →
      url.path = cfg.basePath ++ "/input".toList)
    (hshallow : shallowResubmissionIsEnabled ad = true)
    (htoken : resolveToken cfg localHostname ad = .ok token) :
    pathOfUrl token =
      fullPath cfg (getReallyrunningToken cfg (ad.replansCount.getD 0)) := by
  unfold resolveToken at htoken
  split at htoken
  · cases htoken
  split at htoken
  · cases htoken
  next url hurl =>
    have hpath := hisb url hurl
    have hstring : url.asString = url.protocol ++ "://".toList ++
        (url.host ++ (if url.port.isEmpty then [] else ':' :: url.port)) ++
        cfg.basePath ++ "/input".toList := by
      unfold Url.asString
      rw [hpath]
      simp only [List.append_assoc]
    have hdir := @uptoLast_append "/input".toList (by decide)
      (url.protocol ++ "://".toList ++
        (url.host ++ (if url.port.isEmpty then [] else ':' :: url.port)) ++
        cfg.basePath)
    rw [hstring, hdir] at htoken
    have hfinish : token = url.protocol ++ "://".toList ++
        (url.host ++ (if url.port.isEmpty then [] else ':' :: url.port)) ++
        cfg.basePath ++
        '/' :: getReallyrunningToken cfg (ad.replansCount.getD 0) →
        pathOfUrl token =
          fullPath cfg (getReallyrunningToken cfg (ad.replansCount.getD 0)) := by
      rintro rfl
      rw [List.append_assoc (_ ++ _) cfg.basePath]
      exact pathOfUrl_append url.protocol_no_colon port_no_slash
        (absolute_dir hpath)
    cases hretry : ad.shallowRetryCount with
    | none =>
        rw [hretry] at htoken
        exact hfinish (Except.ok.inj htoken).symm
    | some n =>
        have hn : n ≠ -1 := by
          rintro rfl
          unfold shallowResubmissionIsEnabled getJobShallowCount at hshallow
          rw [hretry] at hshallow
          cases hshallow
        rw [hretry] at htoken
        dsimp only at htoken
        split at htoken
        · exact hfinish (Except.ok.inj htoken).symm
        · exact hfinish (Except.ok.inj htoken).symm

end Wms.Core.Sandbox
