import Mathlib.Data.List.Induction
import Schemata.ImportPath

/-!
# What import paths lead to

The specifier of a module is read from the directory of the file that refers to it. Paths are
compared by the places they lead to, given by components from the root. A path from one directory to
another leads up to what is above both and down from there, `normalize_climb`; so the specifier
leads to the module without its extension, `specifier_leads`. It starts with a dot or two and a
slash, unless it leads down and the first name on the way starts with a dot.
-/

namespace Schemata.ImportPath

open List

variable {root : Bool} {name : String} {lead : List String}

/-- What stands after the last slash of a path. -/
def baseName (path : String) : String :=
  String.ofList (path.toList.reverse.takeWhile (· ≠ '/')).reverse

/-- A path up to its last slash. -/
def parent (path : String) : String :=
  String.ofList (path.toList.reverse.dropWhile (· ≠ '/')).reverse

/-- A component that names a file or a directory. -/
structure IsName (name : String) : Prop where
  proper : name ∉ ["", ".", ".."]
  whole : '/' ∉ name.toList

/-- A relative path that ends in the name of a file. -/
structure IsFile (path : String) : Prop where
  relative : isAbsolute path = false
  base : baseName path ∉ ["", ".", ".."]

/-- A text that is read as a path from the directory it stands in: it starts with `./` or `../`. -/
def StartsRelative (text : String) : Prop :=
  ['.', '/'] <+: text.toList ∨ ['.', '.', '/'] <+: text.toList
  deriving Decidable

section Components

theorem splitOn_ne_nil (separator : Char) (text : List Char) : splitOn separator text ≠ [] := by
  fun_cases splitOn separator text <;> simp_all

theorem splitOn_append (separator : Char) (a b : List Char) :
    splitOn separator (a ++ separator :: b) = splitOn separator a ++ splitOn separator b := by
  induction a with
  | nil => simp [splitOn]
  | cons c rest ih =>
    rw [cons_append, splitOn, splitOn, ih]
    split
    · rfl
    · cases h : splitOn separator rest with
      | nil => exact absurd h (splitOn_ne_nil _ _)
      | cons => rfl

theorem splitOn_of_not_mem {separator : Char} {text : List Char} (h : separator ∉ text) :
    splitOn separator text = [text] := by
  induction text with
  | nil => rfl
  | cons c rest ih =>
    rw [mem_cons, not_or] at h
    rw [splitOn, if_neg (Ne.symm h.1), ih h.2]

theorem components_append (a b : String) :
    components (a ++ "/" ++ b) = components a ++ components b := by
  rw [components, String.toList_append, String.toList_append, append_assoc]
  change ((splitOn '/' (a.toList ++ '/' :: b.toList)).filter _).map _ = _
  rw [splitOn_append, filter_append, map_append]
  rfl

theorem components_whole {text : String} (h : '/' ∉ text.toList) (hempty : text ≠ "")
    (hdot : text ≠ ".") : components text = [text] := by
  have hempty' : text.toList ≠ [] := fun h => hempty (String.toList_inj.1 h)
  have hdot' : text.toList ≠ ['.'] := fun h => hdot (String.toList_inj.1 h)
  rw [components, splitOn_of_not_mem h]
  simp [hempty', hdot']

theorem not_mem_of_mem_splitOn {separator : Char} {text part : List Char}
    (h : part ∈ splitOn separator text) : separator ∉ part := by
  induction text generalizing part with
  | nil =>
    cases mem_singleton.1 h
    exact not_mem_nil
  | cons c rest ih =>
    rw [splitOn] at h
    split at h
    · rcases mem_cons.1 h with rfl | h
      · exact not_mem_nil
      · exact ih h
    · rename_i hc
      cases hps : splitOn separator rest with
      | nil => exact absurd hps (splitOn_ne_nil _ _)
      | cons =>
        rw [hps] at h ih
        rcases mem_cons.1 h with rfl | h
        · exact not_mem_cons_of_ne_of_not_mem (Ne.symm hc) (ih mem_cons_self)
        · exact ih (mem_cons_of_mem _ h)

/-- A component of a path is no empty text, does not stay where it is, and has no slash. -/
structure IsComponent (part : String) : Prop where
  proper : part ≠ "" ∧ part ≠ "."
  whole : '/' ∉ part.toList

theorem component_of_mem {path part : String} (h : part ∈ components path) : IsComponent part := by
  obtain ⟨chars, hchars, rfl⟩ := mem_map.1 h
  obtain ⟨hmem, hkept⟩ := mem_filter.1 hchars
  have hkept : chars ≠ [] ∧ chars ≠ ['.'] := by simpa using hkept
  refine ⟨⟨fun h => hkept.1 ?_, fun h => hkept.2 ?_⟩, ?_⟩
  · simpa using congrArg String.toList h
  · simpa using congrArg String.toList h
  · rw [String.toList_ofList]
    exact not_mem_of_mem_splitOn hmem

/-- The components of a path are those up to its last slash and the one after it. -/
theorem components_parent (path : String) :
    components path = components (parent path) ++ components (baseName path) := by
  have hps : path = parent path ++ baseName path := by
    rw [← String.toList_inj, String.toList_append, parent, baseName, String.toList_ofList,
      String.toList_ofList, ← reverse_append, takeWhile_append_dropWhile,
      reverse_reverse]
  have hempty : components "" = [] := rfl
  refine (congrArg components hps).trans ?_
  cases hback : path.toList.reverse.dropWhile (· ≠ '/') with
  | nil =>
    have hnone : parent path = "" := by rw [parent, hback]; rfl
    rw [hnone, String.empty_append, hempty, nil_append]
  | cons c rest =>
    have hslash : c = '/' := by
      have hhead := head?_dropWhile_not (fun c => decide (c ≠ '/')) path.toList.reverse
      rw [hback] at hhead
      simpa using hhead
    have hparent : parent path = String.ofList rest.reverse ++ "/" := by
      rw [parent, hback, hslash, reverse_cons, String.ofList_append]
    have hlast := components_append (String.ofList rest.reverse) ""
    rw [String.append_empty, ← hparent, hempty, append_nil] at hlast
    rw [hlast, hparent, components_append]

end Components

section Places

theorem step_name (h : name ≠ "..") (back : List String) :
    step root back name = name :: back := if_neg h

theorem step_up {last : String} (h : last ≠ "..") (back : List String) :
    step root (last :: back) ".." = back := if_neg h

theorem foldl_names {names : List String} (h : ∀ name ∈ names, name ≠ "..") (back : List String) :
    names.foldl (step root) back = names.reverse ++ back := by
  induction names generalizing back with
  | nil => rfl
  | cons name rest ih =>
    obtain ⟨hn, hr⟩ := forall_mem_cons.1 h
    rw [foldl_cons, ih hr, step_name hn]
    simp

theorem foldl_up {up : List String} (h : ∀ name ∈ up, name ≠ "..") (rest : List String) :
    (List.replicate up.length "..").foldl (step true) (up ++ rest) = rest := by
  induction up with
  | nil => rfl
  | cons name others ih =>
    obtain ⟨hn, hothers⟩ := forall_mem_cons.1 h
    rw [length_cons, replicate_succ, foldl_cons, cons_append, step_up hn]
    exact ih hothers

/-- Going up from a directory to one above it and down from there. -/
theorem normalize_climb {common up down : List String} (hup : ∀ name ∈ common ++ up, name ≠ "..")
    (hdown : ∀ name ∈ down, name ≠ "..") :
    normalize true (common ++ up ++ (up.map (fun _ => "..") ++ down)) = common ++ down := by
  have hback : ∀ name ∈ up.reverse, name ≠ ".." := fun name hn =>
    hup name (mem_append_right _ (mem_reverse.1 hn))
  have hclimb := foldl_up hback common.reverse
  rw [length_reverse] at hclimb
  rw [normalize, foldl_append, foldl_names hup, append_nil, reverse_append,
    foldl_append, map_const', hclimb, foldl_names hdown]
  simp

theorem normalize_append {parts place : List String} (h : normalize true parts = place)
    (hplace : ∀ name ∈ place, name ≠ "..") (rest : List String) :
    normalize true (parts ++ rest) = normalize true (place ++ rest) := by
  rw [normalize, normalize, foldl_append, foldl_append, foldl_names hplace,
    append_nil, ← h, normalize, reverse_reverse]

/-- The components before those that two lists do not share. -/
theorem after_common (first second : List String) : ∃ common,
    first = common ++ (afterCommon first second).1 ∧
      second = common ++ (afterCommon first second).2 := by
  fun_induction afterCommon first second with
  | case1 left b right ih =>
    obtain ⟨common, hleft, hright⟩ := ih
    exact ⟨b :: common, congrArg _ hleft, congrArg _ hright⟩
  | case2 | case3 => exact ⟨[], rfl, rfl⟩

theorem after_common_below (directory rest : List String) :
    afterCommon directory (directory ++ rest) = ([], rest) := by
  induction directory with
  | nil => cases rest <;> rfl
  | cons name others ih => rw [cons_append, afterCommon, if_pos rfl, ih]

/-- Components that are followed after normalization lead where they lead without it. -/
theorem normalize_inside (current parts : List String) :
    normalize true (current ++ normalize false parts) = normalize true (current ++ parts) := by
  have hwalk (start : List String) : (parts.foldl (step false) []).reverse.foldl (step true) start =
      parts.foldl (step true) start := by
    induction parts using List.reverseRecOn with
    | nil => rfl
    | append_singleton rest component ih =>
      rw [foldl_append, foldl_append, ← ih]
      generalize rest.foldl (step false) [] = back
      rw [foldl_cons, foldl_nil, foldl_cons, foldl_nil]
      by_cases hup : component = ".."
      · subst hup
        cases back with
        | nil => rfl
        | cons last others =>
          by_cases hlast : last = ".."
          · subst hlast
            simp [show step false (".." :: others) ".." = ".." :: ".." :: others from rfl]
          · simp [step_up hlast, step_name hlast]
      · simp [step_name hup]
  rw [normalize, normalize, normalize, foldl_append, foldl_append, hwalk]

/-- What a walk from the root ends with are names, if it is along components. -/
theorem name_of_mem_normalize {parts : List String} (h : ∀ part ∈ parts, IsComponent part) :
    ∀ name ∈ normalize true parts, IsName name := by
  have hwalk (back : List String) (hback : ∀ name ∈ back, IsName name) :
      ∀ name ∈ parts.foldl (step true) back, IsName name := by
    induction parts generalizing back with
    | nil => exact hback
    | cons part rest ih =>
      obtain ⟨hpart, hr⟩ := forall_mem_cons.1 h
      refine ih hr _ ?_
      by_cases hup : part = ".."
      · subst hup
        cases back with
        | nil => exact hback
        | cons =>
          obtain ⟨hlast, hothers⟩ := forall_mem_cons.1 hback
          rwa [step_up fun h => hlast.proper (by simp [h])]
      · rw [step_name hup]
        refine forall_mem_cons.2 ⟨⟨?_, hpart.whole⟩, hback⟩
        simp [hpart.proper.1, hpart.proper.2, hup]
  exact fun name hn => hwalk [] (fun _ h => by cases h) name (mem_reverse.1 hn)

section Files

variable {current : List String} {path : String} (h : IsFile path)
include h

theorem name_of_file : IsName (baseName path) := by
  refine ⟨h.base, fun hmem => ?_⟩
  rw [baseName, String.toList_ofList, mem_reverse] at hmem
  simpa using all_eq_true.1 all_takeWhile _ hmem

theorem components_file : components path = components (parent path) ++ [baseName path] := by
  have hn := name_of_file h
  have hbase := hn.proper
  simp only [mem_cons, not_mem_nil, or_false, not_or] at hbase
  rw [components_parent, components_whole hn.whole hbase.1 hbase.2.1]

theorem normalize_file (root : Bool) (before : List String) :
    normalize root (before ++ components path) =
      normalize root (before ++ components (parent path)) ++ [baseName path] := by
  have hup : baseName path ≠ ".." := fun heq => h.base (by simp [heq])
  rw [components_file h, ← append_assoc, normalize, foldl_append, foldl_cons,
    foldl_nil, step_name hup, reverse_cons]
  rfl

theorem parent_relative : isAbsolute (parent path) = false := by
  have hprefix : (parent path).toList <+: path.toList := by
    rw [parent, String.toList_ofList, ← reverse_suffix, reverse_reverse]
    exact dropWhile_suffix _
  obtain ⟨rest, hr⟩ := hprefix
  have hrelative := h.relative
  rw [isAbsolute, ← hr] at hrelative
  rw [isAbsolute]
  cases hparent : (parent path).toList with
  | nil => rfl
  | cons => rwa [hparent] at hrelative

/-- The place of a file is its name below the place of its directory. -/
theorem absolute_file :
    absolute current path = absolute current (parent path) ++ [baseName path] := by
  rw [absolute, absolute, h.relative, parent_relative h]
  exact normalize_file h true current

/-- The directory of a file is the place that the path up to its last slash leads to. -/
theorem directory_of_file : directoryOf current path = absolute current (parent path) := by
  have hps := normalize_file h false []
  rw [nil_append, nil_append] at hps
  rw [directoryOf, absolute, h.relative, parent_relative h, hps, dropLast_concat]
  exact normalize_inside current _

end Files

end Places

section Specifiers

/-- The text of a path that goes through directories. -/
def joined (lead : List String) (stem : String) : String :=
  lead.foldr (fun part rest => part ++ "/" ++ rest) stem

theorem components_joined (h : ∀ part ∈ lead, IsComponent part) (stem : String) :
    components (joined lead stem) = lead ++ components stem := by
  induction lead with
  | nil => rfl
  | cons part rest ih =>
    obtain ⟨hpart, hr⟩ := forall_mem_cons.1 h
    rw [joined, foldr_cons, components_append, ← joined, ih hr,
      components_whole hpart.whole hpart.proper.1 hpart.proper.2]
    rfl

/-- A specifier is a path, with a dot and a slash before it unless it starts with a dot. -/
theorem specifier_eq (h : ∀ part ∈ lead, IsComponent part) (base : String) :
    specifier (lead ++ [base]) =
      if (joined lead (withoutExtension base)).toList.head? = some '.'
      then joined lead (withoutExtension base)
      else "./" ++ joined lead (withoutExtension base) := by
  have hjoined (stem : String) : (if "/".intercalate lead = "" then stem
      else "/".intercalate lead ++ "/" ++ stem) = joined lead stem := by
    cases lead with
    | nil => rfl
    | cons part rest =>
      have hlead : "/".intercalate (part :: rest) ++ "/" ++ stem = joined (part :: rest) stem := by
        clear h
        induction rest generalizing part with
        | nil => rw [String.intercalate_singleton]; rfl
        | cons next others ih =>
          rw [String.intercalate_cons_cons, joined, foldr_cons, ← joined, ← ih next]
          simp only [String.append_assoc]
      have hsome : "/".intercalate (part :: rest) ≠ "" := by
        cases rest with
        | nil => exact String.intercalate_singleton ▸ (h part mem_cons_self).proper.1
        | cons => simp [String.intercalate_cons_cons]
      rw [if_neg hsome, hlead]
  rw [specifier, dropLast_concat, getLast?_concat]
  dsimp only [Option.getD]
  simp only [hjoined]

theorem head_of_start {a b : String} (h : a.toList <+: b.toList)
    (hsome : a ≠ "") : a.toList.head? = b.toList.head? := by
  obtain ⟨rest, hr⟩ := h
  rw [← hr]
  cases ha : a.toList with
  | nil => exact absurd (String.toList_inj.1 ha) hsome
  | cons => rfl

theorem stem_start (name : String) : (withoutExtension name).toList <+: name.toList := by
  rw [withoutExtension]
  split
  · rw [String.toList_ofList, ← reverse_suffix, reverse_reverse]
    exact (drop_suffix _ _).trans (dropWhile_suffix _)
  · exact prefix_rfl

/-- A specifier leads through the directories to the stem of the last component. -/
theorem components_specifier (h : ∀ part ∈ lead, IsComponent part) (base : String) :
    components (specifier (lead ++ [base])) = lead ++ components (withoutExtension base) ∧
      isAbsolute (specifier (lead ++ [base])) = false := by
  rw [specifier_eq h]
  split
  · rename_i hdot
    exact ⟨components_joined h _, by simp [isAbsolute, hdot]⟩
  · have hpath := components_append "." (joined lead (withoutExtension base))
    exact ⟨hpath.trans (components_joined h _), by simp [isAbsolute]⟩

/-- Of a specifier only a path that starts with a dot can lack the dot and the slash. -/
theorem specifier_starts_relative (h : ∀ part ∈ lead, IsComponent part) (base : String) :
    StartsRelative (specifier (lead ++ [base])) ↔
      ((joined lead (withoutExtension base)).toList.head? = some '.' →
        StartsRelative (joined lead (withoutExtension base))) := by
  rw [specifier_eq h]
  split
  · rename_i hdot
    exact ⟨fun h _ => h, fun h => h hdot⟩
  · rename_i hdot
    refine iff_of_true (.inl ?_) fun h => absurd h hdot
    rw [String.toList_append]
    exact prefix_append _ _

end Specifiers

/-- The path from one directory to a place that is not the directory or above it: first up, then
down to the place. -/
theorem relative_of_not_start {directory place : List String} (h : ¬place <+: directory) :
    ∃ common up down, ∃ name, directory = common ++ up ∧ place = common ++ down ++ [name] ∧
      relative directory place = up.map (fun _ => "..") ++ down ++ [name] := by
  obtain ⟨common, hdirectory, hplace⟩ := after_common directory place
  rw [relative]
  generalize afterCommon directory place = parts at hdirectory hplace
  obtain ⟨up, down⟩ := parts
  rcases eq_nil_or_concat down with rfl | ⟨others, name, rfl⟩
  · exact absurd ⟨up, by rw [hdirectory, hplace, append_nil]⟩ h
  · exact ⟨common, up, others, name, hdirectory, by simpa using hplace, by simp⟩

/-- A path through a directory of a proper name does not start with a dot or two and a slash. -/
theorem not_starts_relative (h : IsName name) (rest : String) :
    ¬StartsRelative (name ++ "/" ++ rest) := by
  obtain ⟨hproper, hwhole⟩ := h
  simp only [mem_cons, not_mem_nil, or_false, not_or, ← String.toList_inj] at hproper
  rw [StartsRelative, String.toList_append, String.toList_append]
  generalize name.toList = chars at hproper hwhole
  match chars with
  | [] => exact absurd rfl hproper.1
  | [c] =>
    simp_all
    exact fun h => hproper h.symm
  | [c, d] =>
    simp_all
    exact fun hc hd => hproper hc.symm hd.symm
  | c :: d :: e :: others => simp_all

theorem IsName.ne_up (h : IsName name) : name ≠ ".." := fun heq => h.proper (by simp [heq])

theorem IsName.component (h : IsName name) : IsComponent name :=
  ⟨⟨fun heq => h.proper (by simp [heq]), fun heq => h.proper (by simp [heq])⟩, h.whole⟩

theorem place_names {current : List String} (hcurrent : ∀ name ∈ current, IsName name)
    (path : String) : ∀ name ∈ absolute current path, IsName name := by
  refine name_of_mem_normalize fun part hpart => ?_
  split at hpart
  · exact component_of_mem hpart
  · rcases mem_append.1 hpart with hpart | hpart
    · exact (hcurrent part hpart).component
    · exact component_of_mem hpart

section Climbs

variable {common up down : List String} {base : String}
  (hnames : ∀ name ∈ common ++ up, IsName name)
  (hplaces : ∀ name ∈ common ++ down ++ [base], IsName name)
include hplaces

theorem lead_components : ∀ part ∈ up.map (fun _ => "..") ++ down, IsComponent part := by
  refine forall_mem_append.2 ⟨?_, fun part hpart => (hplaces part (by simp [hpart])).component⟩
  exact forall_mem_map.2 fun _ _ => ⟨by decide, by decide⟩

theorem stem_whole : '/' ∉ (withoutExtension base).toList := fun h =>
  (hplaces base (by simp)).whole ((stem_start base).subset h)

include hnames in
/-- From one directory the specifier leads to the stem in another one. -/
theorem specifier_leads :
    absolute (common ++ up) (specifier (up.map (fun _ => "..") ++ down ++ [base])) =
      absolute (common ++ down) (withoutExtension base) := by
  obtain ⟨hcomponents, hspecifier⟩ := components_specifier (lead_components hplaces) base
  have hdown (name : String) (hn : name ∈ common ++ down) : name ≠ ".." :=
    (hplaces name (mem_append_left _ hn)).ne_up
  have hclimb := @normalize_climb common up down (fun name hn => (hnames name hn).ne_up)
    fun name hn => hdown name (mem_append_right _ hn)
  have hstem : isAbsolute (withoutExtension base) = false :=
    decide_eq_false fun h => stem_whole hplaces (mem_of_head? h)
  have happend := normalize_append hclimb hdown (components (withoutExtension base))
  rw [absolute, absolute, hspecifier, hstem, hcomponents]
  rwa [append_assoc (common ++ up)] at happend

/-- A specifier that leads up starts with two dots and a slash. -/
theorem climbing_starts_relative (hup : up ≠ []) :
    StartsRelative (specifier (up.map (fun _ => "..") ++ down ++ [base])) := by
  rw [specifier_starts_relative (lead_components hplaces)]
  cases up with
  | nil => exact absurd rfl hup
  | cons a others =>
    exact fun _ => .inr ⟨(joined (others.map (fun _ => "..") ++ down)
      (withoutExtension base)).toList, by simp [joined]⟩

/-- A specifier that leads down starts with a dot and a slash unless the first name on the way does
start with a dot itself. -/
theorem descending_starts_relative (hstem : withoutExtension base ≠ "") {a : String}
    {others : List String} (ha : down ++ [base] = a :: others) :
    StartsRelative (specifier (down ++ [base])) ↔ ¬a.toList.head? = some '.' := by
  have hdown : ∀ part ∈ down, IsComponent part := @lead_components common [] down base hplaces
  rw [specifier_starts_relative hdown]
  have hdotted {path : String} (hhead : path.toList.head? = a.toList.head?)
      (h : ¬StartsRelative path) :
      (path.toList.head? = some '.' → StartsRelative path) ↔ ¬a.toList.head? = some '.' := by
    rw [hhead]
    exact forall_congr' fun _ => iff_of_false h id
  cases down with
  | nil =>
    cases ha
    refine hdotted (head_of_start (stem_start base) hstem) (Or.rec ?_ ?_)
    · exact fun h => stem_whole hplaces (h.subset (by simp))
    · exact fun h => stem_whole hplaces (h.subset (by simp))
  | cons =>
    cases ha
    have hn := hplaces a (by simp)
    refine hdotted (head_of_start ?_ hn.component.proper.1).symm (not_starts_relative hn _)
    rw [joined, foldr_cons, String.append_assoc, String.toList_append]
    exact prefix_append _ _

end Climbs

/-- A module is referred to by a path that leads from the directory of the file to the place of the
module, without its extension. The path starts with a dot or two and a slash, unless the module is
below that directory and the first name on the way to it starts with a dot. -/
theorem specifier_leads_to_module {current : List String} {fromFile toFile : String}
    (hcurrent : ∀ name ∈ current, IsName name)
    (hfrom : IsFile (slashes fromFile)) (hto : IsFile (slashes toFile))
    (hstem : withoutExtension (baseName (slashes toFile)) ≠ "")
    (hapart : ¬absolute current (slashes toFile) <+: absolute current (parent (slashes fromFile))) :
    absolute (absolute current (parent (slashes fromFile))) (importPath current fromFile toFile) =
        absolute (absolute current (parent (slashes toFile)))
          (withoutExtension (baseName (slashes toFile))) ∧
      (StartsRelative (importPath current fromFile toFile) ↔
        ¬∃ name rest, absolute current (slashes toFile) =
          absolute current (parent (slashes fromFile)) ++ name :: rest ∧
            name.toList.head? = some '.') := by
  have hnames := place_names hcurrent (parent (slashes fromFile))
  have hplaces := place_names hcurrent (slashes toFile)
  rw [importPath, directory_of_file hfrom]
  rw [absolute_file hto] at hplaces hapart ⊢
  generalize absolute current (parent (slashes fromFile)) = directory at hnames hapart
  generalize absolute current (parent (slashes toFile)) = place at hplaces hapart
  generalize baseName (slashes toFile) = base at hplaces hapart hstem
  obtain ⟨common, up, down, name, rfl, hplace, hrelative⟩ := relative_of_not_start hapart
  obtain ⟨rfl, hbase⟩ := List.append_inj' hplace rfl
  cases hbase
  rw [hrelative]
  refine ⟨specifier_leads hnames hplaces, ?_⟩
  by_cases hup : up = []
  · subst hup
    obtain ⟨first, others, hdown⟩ := List.exists_cons_of_ne_nil (List.concat_ne_nil base down)
    refine (descending_starts_relative hplaces hstem hdown).trans (not_congr ?_)
    rw [List.append_nil, List.append_assoc, hdown]
    refine ⟨fun h => ⟨first, others, rfl, h⟩, fun ⟨_, _, heq, h⟩ => ?_⟩
    cases List.append_cancel_left heq
    exact h
  · refine iff_of_true (climbing_starts_relative hplaces hup) ?_
    rintro ⟨first, rest, hbelow, -⟩
    -- The place would be below the directory, and nothing would lead up.
    rw [hbelow, relative, after_common_below] at hrelative
    have hfirst : first = ".." := by
      cases up with
      | nil => exact absurd rfl hup
      | cons => exact (List.cons.inj hrelative).1
    exact (hplaces first (hbelow ▸ by simp)).ne_up hfirst

/-- The way goes up and then down into a directory with a dot before its name, and only the last
ending of the file is taken off. -/
theorem user_from_schemas :
    absolute ["work", "out"] (importPath ["work"] "out/schemas.ts" "src\\.data/user.d.ts") =
        ["work", "src", ".data", "user.d"] ∧
      StartsRelative (importPath ["work"] "out/schemas.ts" "src\\.data/user.d.ts") := by
  have hout : absolute ["work"] (parent (slashes "out/schemas.ts")) = ["work", "out"] := by decide
  have huser : absolute ["work"] (slashes "src\\.data/user.d.ts") =
      ["work", "src", ".data", "user.d.ts"] := by decide
  obtain ⟨hleads, hstarts⟩ := @specifier_leads_to_module ["work"] "out/schemas.ts"
    "src\\.data/user.d.ts" (List.forall_mem_singleton.2 ⟨by decide, by decide⟩)
    ⟨by decide, by decide⟩ ⟨by decide, by decide⟩ (by decide) (by decide)
  rw [hout, huser] at hstarts
  rw [hout] at hleads
  exact ⟨hleads, hstarts.2 fun ⟨_, _, h, _⟩ => by simp at h⟩

/-- A module in a directory with a dot before its name is referred to by a text that is not read as
a path from the directory of the file. A module that has the path of a directory above the file is
taken for that directory. -/
theorem dotted_directory_not_relative :
    importPath [] "schemas.ts" ".types/user.ts" = ".types/user" ∧
      ¬StartsRelative (importPath [] "schemas.ts" ".types/user.ts") ∧
      absolute ["src", "out"] (importPath [] "src/out/schemas.ts" "src") = ["src", "out"] := by
  decide

end Schemata.ImportPath
