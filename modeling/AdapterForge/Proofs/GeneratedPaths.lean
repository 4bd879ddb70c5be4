import Mathlib.Data.List.Nodup
import AdapterForge.Generated
import AdapterForge.Proofs.PathNames

/-!
Where the files of a bidder go. The file name and the last folder tell the files of one bidder
apart, and those of bidders whose names differ in more than the case of their letters.
-/
namespace AdapterForge

structure IsWord (s : String) : Prop where
  ne_empty : s ≠ ""
  alphanum : ∀ c ∈ s.toList, c.isAlphanum = true

namespace IsWord

variable {s : String}

theorem toList_ne_nil (h : IsWord s) : s.toList ≠ [] := by simpa using h.ne_empty

theorem not_mem (h : IsWord s) {c : Char} (hc : c.isAlphanum = false) : c ∉ s.toList := by
  intro hmem
  rw [h.alphanum c hmem] at hc
  cases hc

theorem ascii {c : Char} (h : c.isAlphanum = true) : c.toNat < 128 := by
  have hranges : ((65 ≤ c.toNat ∧ c.toNat ≤ 90) ∨ (97 ≤ c.toNat ∧ c.toNat ≤ 122)) ∨
      (48 ≤ c.toNat ∧ c.toNat ≤ 57) := by
    rcases Bool.or_eq_true_iff.1 h with h | h
    · rcases Bool.or_eq_true_iff.1 h with h | h
      · exact .inl (.inl (of_decide_eq_true h))
      · exact .inl (.inr ((Bool.and_eq_true_iff.1 h).imp of_decide_eq_true of_decide_eq_true))
    · exact .inr ((Bool.and_eq_true_iff.1 h).imp of_decide_eq_true of_decide_eq_true)
  omega

theorem case_eq {c : Char} (h : c.isAlphanum = true) :
    c.toLower.isAlphanum = true ∧ Text.uppercase c = [c.toUpper] ∧ c.toUpper.isAlphanum = true := by
  exact Text.forall_ascii (p := fun c => c.isAlphanum = true → c.toLower.isAlphanum = true ∧
    Text.uppercase c = [c.toUpper] ∧ c.toUpper.isAlphanum = true) (by decide +kernel) (ascii h) h

theorem lower (h : IsWord s) : IsWord (Java.lower s) where
  ne_empty := by
    have hne := h.toList_ne_nil
    simpa [Java.lower, ← String.toList_eq_nil_iff] using hne
  alphanum := by
    intro c hc
    rw [Java.lower, String.toList_map, List.mem_map] at hc
    obtain ⟨d, hd, rfl⟩ := hc
    exact (case_eq (h.alphanum d hd)).1

theorem capitalize (h : IsWord s) : IsWord (Java.capitalize s) := by
  cases hs : s.toList with
  | nil => exact absurd hs h.toList_ne_nil
  | cons c r =>
    obtain ⟨-, hupper, halphanum⟩ := case_eq (h.alphanum c (by simp [hs]))
    have heq : Java.capitalize s = String.ofList (c.toUpper :: r) := by
      simp only [Java.capitalize, hs, hupper, List.singleton_append]
    rw [heq]
    refine ⟨by simp, fun d hd => ?_⟩
    rw [String.toList_ofList, List.mem_cons] at hd
    rcases hd with rfl | hd
    · exact halphanum
    · exact h.alphanum d (by simp [hs, hd])

theorem append {t : String} (h : IsWord s) (ht : IsWord t) : IsWord (s ++ t) where
  ne_empty := by simp [h.ne_empty]
  alphanum := by
    intro c hc
    rw [String.toList_append, List.mem_append] at hc
    exact hc.elim (h.alphanum c) (ht.alphanum c)

theorem slash_not_mem_append (h : IsWord s) {extension : String} (hext : '/' ∉ extension.toList) :
    '/' ∉ (s ++ extension).toList := by
  rw [String.toList_append, List.mem_append, not_or]
  exact ⟨h.not_mem rfl, hext⟩

theorem exists_ne_dot (h : IsWord s) : ∃ c ∈ s.toList, c ≠ '.' := by
  obtain ⟨c, hc⟩ := List.exists_mem_of_ne_nil _ h.toList_ne_nil
  refine ⟨c, hc, ?_⟩
  rintro rfl
  exact h.not_mem rfl hc

end IsWord

theorem Description.isWord_name {d : Description} (h : d.fault? = none) : IsWord d.name := by
  obtain ⟨hne, hall, -⟩ := fault?_eq_none_iff.1 h
  exact ⟨hne, List.all_eq_true.1 hall⟩

theorem packageFolders_eq (package : String) :
    packageFolders package = (parts '.' package.toList).map String.ofList := by
  unfold packageFolders
  rw [splitDots_eq]
  rfl

theorem packageFolders_append (package : String) {last : String} (h : '.' ∉ last.toList) :
    packageFolders (package ++ "." ++ last) = packageFolders package ++ [last] := by
  have hlist : (package ++ "." ++ last).toList = package.toList ++ '.' :: last.toList := by simp
  rw [packageFolders_eq, packageFolders_eq, hlist, parts_append, parts_of_not_mem h, List.map_append,
    List.map_cons, String.ofList_toList]
  rfl

/-- A package may hold slashes, but its folders never hold a dot. -/
theorem dot_not_mem_of_mem_packageFolders {package folder : String}
    (h : folder ∈ packageFolders package) : '.' ∉ folder.toList := by
  rw [packageFolders_eq, List.mem_map] at h
  obtain ⟨w, hw, rfl⟩ := h
  rw [String.toList_ofList]
  exact (chars_of_mem_parts hw).1

theorem dots_not_mem_names_of_name {file : String} (h : '/' ∉ file.toList) {c : Char}
    (hc : c ∈ file.toList) (hne : c ≠ '.') : ".." ∉ FilePath.names file := by
  have hfile : file ≠ "" := by
    rintro rfl
    simp at hc
  rw [FilePath.names_of_not_mem h hfile, List.mem_singleton]
  rintro rfl
  exact hne (by simpa using hc)

theorem dots_not_mem_names_classPath {sourceSet : String} (hset : '.' ∉ sourceSet.toList)
    (package : String) {name : String} (hname : IsWord name) :
    ".." ∉ FilePath.names (classPath sourceSet package name) := by
  have hfolders : ∀ (folders : List String) (base : String), (∀ k ∈ folders, '.' ∉ k.toList) →
      ".." ∉ FilePath.names base → ".." ∉ FilePath.names (folders.foldl FilePath.join base) := by
    intro folders
    induction folders with
    | nil => exact fun _ _ hbase => hbase
    | cons k r ih =>
      intro base hdots hbase
      refine ih _ (fun j hj => hdots j (List.mem_cons_of_mem _ hj)) fun hmem => ?_
      rcases FilePath.mem_names_join hmem with hmem | hmem
      · exact hbase hmem
      · exact FilePath.dots_not_mem_names (hdots k (List.mem_cons_self ..)) hmem
  intro hmem
  rcases FilePath.mem_names_join hmem with hmem | hmem
  · refine hfolders _ _ (fun k => dot_not_mem_of_mem_packageFolders) ?_ hmem
    apply FilePath.dots_not_mem_names
    simpa using hset
  · exact dots_not_mem_names_of_name (hname.slash_not_mem_append (by decide)) (c := 'j') (by simp)
      (by decide) hmem

theorem dots_not_mem_names_resource {path name extension : String}
    (hpath : path.toList.getLast? = some '/') (hdots : '.' ∉ path.toList) (hname : IsWord name)
    (hext : '/' ∉ extension.toList) : ".." ∉ FilePath.names (path ++ name ++ extension) := by
  obtain ⟨c, hc, hne⟩ := hname.exists_ne_dot
  rw [String.append_assoc, FilePath.names_append_of_getLast? hpath, List.mem_append, not_or]
  refine ⟨FilePath.dots_not_mem_names hdots, ?_⟩
  exact dots_not_mem_names_of_name (hname.slash_not_mem_append hext) (by simp [hc]) hne

theorem ending_classPath (sourceSet package : String) {last name : String} (hlast : IsWord last)
    (hname : IsWord name) :
    FilePath.ending (classPath sourceSet (package ++ "." ++ last) name) = [name ++ ".java", last] := by
  unfold classPath
  rw [packageFolders_append package (hlast.not_mem rfl), List.foldl_append]
  generalize (packageFolders package).foldl FilePath.join _ = base
  have hfile : '/' ∉ (name ++ ".java").toList := hname.slash_not_mem_append (by decide)
  apply FilePath.ending_of_names (l := FilePath.names base)
  rw [List.foldl_cons, List.foldl_nil, FilePath.names_join_name hfile (by simp),
    FilePath.names_join_name (hlast.not_mem rfl) hlast.ne_empty, List.append_assoc]
  rfl

theorem ending_resource {folder path name extension : String} {l : List String}
    (hpath : path.toList.getLast? = some '/') (hnames : FilePath.names path = l ++ [folder])
    (hname : IsWord name) (hext : '/' ∉ extension.toList) :
    FilePath.ending (path ++ name ++ extension) = [name ++ extension, folder] := by
  have hfile : '/' ∉ (name ++ extension).toList := hname.slash_not_mem_append hext
  have hne : name ++ extension ≠ "" := by
    simp [hname.ne_empty]
  apply FilePath.ending_of_names (l := l)
  rw [String.append_assoc, FilePath.names_append_of_getLast? hpath, hnames,
    FilePath.names_of_not_mem hfile hne, List.append_assoc]
  rfl

namespace Adapter

theorem generate_eq_ok {a : Adapter} {config : CodegenConfig} {g : GeneratedBidder} :
    a.generate config = .ok g ↔
      ∃ c, a.compile = .ok c ∧ g = ⟨a.name, a.files config c, c⟩ := by
  unfold generate
  cases a.compile with
  | error x => simp [Except.map]
  | ok c => simp [Except.map, eq_comm]

def endings (a : Adapter) : List (List String) :=
  [a.bidderClass ++ ".java", a.lowerName] ::
    (if a.params.isEmpty then [] else [[a.extClass ++ ".java", a.lowerName]]) ++
    [[a.testClass ++ ".java", a.lowerName], [a.lowerName ++ ".yaml", "bidder-config"],
      [a.lowerName ++ ".json", "bidder-params"]]

variable {a b : Adapter}

theorem isWord_bidderClass (h : IsWord a.name) : IsWord a.bidderClass :=
  h.capitalize.append ⟨by decide, by simp⟩

theorem isWord_testClass (h : IsWord a.name) : IsWord a.testClass :=
  (isWord_bidderClass h).append ⟨by decide, by simp⟩

theorem isWord_extClass (h : IsWord a.name) : IsWord a.extClass :=
  IsWord.append ⟨by decide, by simp⟩ h.capitalize

theorem map_ending_files (h : IsWord a.name) (config : CodegenConfig) (c : Compiled) :
    (a.files config c).map (fun f => FilePath.ending f.path) = a.endings := by
  have hlower : IsWord a.lowerName := h.lower
  have hadapter : FilePath.ending (a.adapterFile config c).path =
      [a.bidderClass ++ ".java", a.lowerName] :=
    ending_classPath _ _ hlower (isWord_bidderClass h)
  have hext : FilePath.ending (a.extensionFile config).path = [a.extClass ++ ".java", a.lowerName] :=
    ending_classPath _ _ hlower (isWord_extClass h)
  have htest : FilePath.ending (a.testFile config c).path = [a.testClass ++ ".java", a.lowerName] :=
    ending_classPath _ _ hlower (isWord_testClass h)
  have hconfig : FilePath.ending a.configFile.path = [a.lowerName ++ ".yaml", "bidder-config"] :=
    ending_resource (l := ["src", "main", "resources"]) (by decide) (by decide) hlower (by decide)
  have hschema : FilePath.ending a.schemaFile.path = [a.lowerName ++ ".json", "bidder-params"] :=
    ending_resource (l := ["src", "main", "resources", "static"]) (by decide) (by decide) hlower
      (by decide)
  unfold files endings
  split <;> simp only [List.map_cons, List.map_nil, List.nil_append, List.cons_append, hadapter, hext,
    htest, hconfig, hschema]

theorem ending_mem_endings (h : IsWord a.name) {config : CodegenConfig} {c : Compiled}
    {f : GeneratedFile} (hf : f ∈ a.files config c) : FilePath.ending f.path ∈ a.endings := by
  rw [← map_ending_files h config c]
  exact List.mem_map_of_mem hf

/-- No path of a generated file goes up, whatever the packages. -/
theorem dots_not_mem_names_files (h : IsWord a.name) {config : CodegenConfig} {c : Compiled}
    {f : GeneratedFile} (hf : f ∈ a.files config c) : ".." ∉ FilePath.names f.path := by
  have hlower : IsWord a.lowerName := h.lower
  unfold files at hf
  rcases List.mem_append.1 hf with hf | hf
  · rcases List.mem_cons.1 hf with rfl | hf
    · exact dots_not_mem_names_classPath (by decide) _ (isWord_bidderClass h)
    · split at hf
      · cases hf
      · obtain rfl := List.mem_singleton.1 hf
        exact dots_not_mem_names_classPath (by decide) _ (isWord_extClass h)
  · simp only [List.mem_cons, List.not_mem_nil, or_false] at hf
    rcases hf with rfl | rfl | rfl
    · exact dots_not_mem_names_classPath (by decide) _ (isWord_testClass h)
    · exact dots_not_mem_names_resource (by decide) (by decide) hlower (by decide)
    · exact dots_not_mem_names_resource (by decide) (by decide) hlower (by decide)

theorem nodup_fileNames (a : Adapter) :
    [a.bidderClass ++ ".java", a.extClass ++ ".java", a.testClass ++ ".java",
      a.lowerName ++ ".yaml", a.lowerName ++ ".json"].Nodup := by
  -- adapter and extension class have names of the same length, but not as many letters `B`
  apply List.Nodup.of_map fun s => (s.toList.getLast?, s.toList.length, s.toList.count 'B')
  simp [bidderClass, extClass, testClass, Java.bidderClass, Java.extClass, List.getLast?_cons]

theorem nodup_names_endings (a : Adapter) : (a.endings.map fun e => e.headD "").Nodup := by
  refine List.Nodup.sublist ?_ a.nodup_fileNames
  unfold endings
  split
  · exact (List.sublist_cons_self ..).cons_cons _
  · exact .refl _

theorem nodup_endings (a : Adapter) : a.endings.Nodup := a.nodup_names_endings.of_map _

theorem mem_endings {e : List String} (h : e ∈ a.endings) :
    (∃ name, e = [name ++ ".java", a.lowerName]) ∨ e = [a.lowerName ++ ".yaml", "bidder-config"] ∨
      e = [a.lowerName ++ ".json", "bidder-params"] := by
  unfold endings at h
  rcases List.mem_append.1 h with h | h
  · left
    split at h
    · exact ⟨_, List.mem_singleton.1 h⟩
    · rcases List.mem_pair.1 h with h | h
      · exact ⟨_, h⟩
      · exact ⟨_, h⟩
  · rcases List.mem_cons.1 h with h | h
    · exact .inl ⟨_, h⟩
    · exact .inr (List.mem_pair.1 h)

theorem proper_of_mem_endings (h : IsWord a.name) {e : List String} (he : e ∈ a.endings) :
    ∃ file folder, e = [file, folder] ∧ (∃ c ∈ file.toList, c ≠ '.') ∧
      ∃ c ∈ folder.toList, c ≠ '.' := by
  have hlower : ∃ c ∈ a.lowerName.toList, c ≠ '.' := h.lower.exists_ne_dot
  rcases mem_endings he with ⟨name, rfl⟩ | rfl | rfl
  · exact ⟨_, _, rfl, ⟨'j', by simp, by decide⟩, hlower⟩
  · exact ⟨_, _, rfl, ⟨'y', by simp, by decide⟩, 'b', by simp, by decide⟩
  · exact ⟨_, _, rfl, ⟨'j', by simp, by decide⟩, 'b', by simp, by decide⟩

theorem lowerName_ne_of_mem (h : IsWord a.name) {folder : String}
    (hdash : '-' ∈ folder.toList) : a.lowerName ≠ folder := by
  rintro rfl
  exact h.lower.not_mem rfl hdash

/-- Bidders whose names differ in more than the case of their letters have no ending in common. -/
theorem disjoint_endings (ha : IsWord a.name) (hb : IsWord b.name)
    (h : a.lowerName ≠ b.lowerName) : a.endings.Disjoint b.endings := by
  have hconfig : '-' ∈ "bidder-config".toList := by decide
  have hparams : '-' ∈ "bidder-params".toList := by decide
  intro e hea heb
  rcases mem_endings hea with ⟨name, rfl⟩ | rfl | rfl <;>
    rcases mem_endings heb with ⟨name', he⟩ | he | he <;>
    simp only [List.cons.injEq, and_true] at he
  · exact h he.2
  · exact lowerName_ne_of_mem ha hconfig he.2
  · exact lowerName_ne_of_mem ha hparams he.2
  · exact lowerName_ne_of_mem hb hconfig he.2.symm
  · exact h (by simpa using he)
  · exact absurd he.2 (by decide)
  · exact lowerName_ne_of_mem hb hparams he.2.symm
  · exact absurd he.2 (by decide)
  · exact h (by simpa using he)

end Adapter

end AdapterForge
