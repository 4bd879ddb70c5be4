import AdapterForge.FieldPath
import AdapterForge.FilePath

/-!
The parts of a text between the occurrences of a character, and the names that joined paths go
through.
-/
namespace AdapterForge

def splitAt (sep : Char) : List Char → List Char × List (List Char)
  | [] => ([], [])
  | c :: r =>
    let (w, ws) := splitAt sep r
    if c = sep then ([], w :: ws) else (c :: w, ws)

theorem splitSlashes_eq (l : List Char) : FilePath.splitSlashes l = splitAt '/' l := by
  induction l with
  | nil => rfl
  | cons c l ih => rw [FilePath.splitSlashes, splitAt, ih]

theorem splitDots_eq (l : List Char) : FieldPath.splitDots l = splitAt '.' l := by
  induction l with
  | nil => rfl
  | cons c l ih => rw [FieldPath.splitDots, splitAt, ih]

def parts (sep : Char) (l : List Char) : List (List Char) := (splitAt sep l).1 :: (splitAt sep l).2

section

variable {sep : Char} {l : List Char}

theorem parts_eq_splitOn (sep : Char) (l : List Char) : parts sep l = l.splitOn sep := by
  induction l with
  | nil => rfl
  | cons c l ih =>
    rw [List.splitOn_cons_eq_if_modifyHead, ← ih]
    by_cases hc : c = sep <;> simp [parts, splitAt, hc]

theorem parts_append (sep : Char) (l r : List Char) :
    parts sep (l ++ sep :: r) = parts sep l ++ parts sep r := by
  simp only [parts_eq_splitOn, List.splitOn_append_cons_self]

theorem parts_of_not_mem (h : sep ∉ l) : parts sep l = [l] := by
  rw [parts_eq_splitOn, List.splitOn_eq_singleton h]

theorem chars_of_mem_parts {w : List Char} (h : w ∈ parts sep l) : sep ∉ w ∧ w ⊆ l := by
  induction l generalizing w with
  | nil =>
    rw [show w = [] from List.mem_singleton.1 h]
    simp
  | cons c l ih =>
    unfold parts at h ih
    simp only [splitAt] at h
    split at h
    · rcases List.mem_cons.1 h with rfl | h
      · simp
      · exact ⟨(ih h).1, List.subset_cons_of_subset c (ih h).2⟩
    · next hc =>
      rcases List.mem_cons.1 h with rfl | h
      · obtain ⟨hsep, hsub⟩ := ih (List.mem_cons_self ..)
        exact ⟨List.not_mem_cons_of_ne_of_not_mem (Ne.symm hc) hsep, List.cons_subset_cons c hsub⟩
      · have hmem := ih (List.mem_cons_of_mem _ h)
        exact ⟨hmem.1, List.subset_cons_of_subset c hmem.2⟩

theorem eq_sep_of_parts (h : ∀ w ∈ parts sep l, w = []) : ∀ c ∈ l, c = sep := by
  induction l with
  | nil => simp
  | cons c l ih =>
    unfold parts at h ih
    simp only [splitAt] at h
    split at h
    · next hc =>
      intro d hd
      rcases List.mem_cons.1 hd with rfl | hd
      · exact hc
      · exact ih (fun w hw => h w (List.mem_cons_of_mem _ hw)) d hd
    · exact absurd (h _ (List.mem_cons_self ..)) (by simp)

end

namespace FilePath

theorem names_eq (path : String) :
    names path = ((parts '/' path.toList).filter (· ≠ [])).map String.ofList := by
  unfold names
  rw [splitSlashes_eq]
  rfl

theorem names_append_slash (a b : String) : names (a ++ "/" ++ b) = names a ++ names b := by
  have hlist : (a ++ "/" ++ b).toList = a.toList ++ '/' :: b.toList := by simp
  rw [names_eq, names_eq, names_eq, hlist, parts_append, List.filter_append, List.map_append]

theorem names_of_not_mem {s : String} (h : '/' ∉ s.toList) (hne : s ≠ "") : names s = [s] := by
  have hlist : s.toList ≠ [] := by simpa using hne
  simp [names_eq, parts_of_not_mem h, hlist]

theorem names_append_of_getLast? {a : String} (h : a.toList.getLast? = some '/') (b : String) :
    names (a ++ b) = names a ++ names b := by
  obtain ⟨l, hl⟩ := List.getLast?_eq_some_iff.1 h
  obtain rfl : a = String.ofList l ++ "/" := by
    apply String.toList_inj.1
    simpa using hl
  have hfirst : names (String.ofList l ++ "/") = names (String.ofList l) := by
    have hslash := names_append_slash (String.ofList l) ""
    rwa [String.append_empty, show names "" = [] from rfl, List.append_nil] at hslash
  rw [names_append_slash, hfirst]

theorem names_join {base path : String} (h : isAbsolute path = false) :
    names (join base path) = names base ++ names path := by
  unfold join
  rw [h, if_neg Bool.false_ne_true]
  split
  · next hbase =>
    rw [hbase]
    rfl
  · split
    · next hlast => exact names_append_of_getLast? hlast path
    · exact names_append_slash base path

theorem exists_names_join (base path : String) : ∃ l, names (join base path) = l ++ names path := by
  cases h : isAbsolute path with
  | true => exact ⟨[], by simp [join, h]⟩
  | false => exact ⟨_, names_join h⟩

theorem mem_names_join {base path k : String} (h : k ∈ names (join base path)) :
    k ∈ names base ∨ k ∈ names path := by
  cases habs : isAbsolute path with
  | true => exact .inr (by simpa [join, habs] using h)
  | false =>
    rw [names_join habs] at h
    exact List.mem_append.1 h

theorem dots_not_mem_names {path : String} (h : '.' ∉ path.toList) : ".." ∉ names path := by
  rw [names_eq, List.mem_map]
  rintro ⟨w, hw, heq⟩
  have hdot : '.' ∈ w := by
    rw [← String.toList_ofList (l := w), heq]
    decide
  exact h ((chars_of_mem_parts (List.mem_filter.1 hw).1).2 hdot)

theorem isAbsolute_of_not_mem {path : String} (h : '/' ∉ path.toList) : isAbsolute path = false := by
  unfold isAbsolute
  cases hl : path.toList with
  | nil => rfl
  | cons c l =>
    have hc : c ≠ '/' := by
      rintro rfl
      simp [hl] at h
    simpa using hc

theorem steps_ne_nil {path : String} (h : path ≠ "") : steps path ≠ [] := by
  unfold steps
  intro hnil
  obtain ⟨hnames, hend⟩ := List.append_eq_nil_iff.1 hnil
  have hslash : ∀ c ∈ path.toList, c = '/' := by
    apply eq_sep_of_parts
    intro w hw
    rw [names_eq, List.map_eq_nil_iff, List.filter_eq_nil_iff] at hnames
    simpa using hnames w hw
  have hne : path.toList ≠ [] := by simpa using h
  have hlast : path.toList.getLast? = some '/' := by
    rw [List.getLast?_eq_some_getLast hne, hslash _ (List.getLast_mem hne)]
  simp [hlast] at hend

def ending (path : String) : List String := (names path).reverse.take 2

variable {base path file folder : String}

theorem ending_of_names {l : List String} (h : names path = l ++ [folder, file]) :
    ending path = [file, folder] := by
  simp [ending, h]

theorem names_of_ending (h : ending path = [file, folder]) :
    ∃ l, names path = l ++ [folder, file] := by
  refine ⟨((names path).reverse.drop 2).reverse, ?_⟩
  have hsplit := congrArg List.reverse (List.take_append_drop 2 (names path).reverse)
  rw [show (names path).reverse.take 2 = [file, folder] from h] at hsplit
  simpa using hsplit.symm

theorem ending_join (h : ending path = [file, folder]) : ending (join base path) = [file, folder] := by
  obtain ⟨l, hl⟩ := names_of_ending h
  obtain ⟨l', hl'⟩ := exists_names_join base path
  exact ending_of_names (l := l' ++ l) (by rw [hl', hl, List.append_assoc])

theorem names_join_name (h : '/' ∉ file.toList) (hne : file ≠ "") :
    names (join base file) = names base ++ [file] := by
  rw [names_join (isAbsolute_of_not_mem h), names_of_not_mem h hne]

end FilePath

end AdapterForge
