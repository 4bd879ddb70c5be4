import Mathlib
import AdapterForge.Proofs.NameReading
import AdapterForge.Proofs.NameScanning
import AdapterForge.Project.Start

/-!
The configuration of a new project as it is read: it has the name of the project when the name is
empty or a plain line, and no other name is read as it was given.
-/
namespace AdapterForge

open Yaml Token

namespace Project

def startComment : List Char := (startSettings.toList.drop 3).takeWhile (!isBreak ·)

def startLines : List Char := startSettings.toList.drop (startComment.length + 5)

def startTokens : List Token :=
  [.key, .scalar "output_dir" .plain, .value, .scalar "." .quoted,
    .key, .scalar "bidders_dir" .plain, .value, .scalar "bidders" .plain,
    .key, .scalar "codegen" .plain, .value, .blockMapping,
    .key, .scalar "indent" .plain, .value, .scalar "    " .quoted,
    .key, .scalar "model_package" .plain, .value, .scalar "com.iab.openrtb.request" .plain,
    .key, .scalar "bidder_package" .plain, .value, .scalar "org.prebid.server.bidder" .plain,
    .key, .scalar "ext_package" .plain, .value,
    .scalar "org.prebid.server.proto.openrtb.ext.request" .plain,
    .blockEnd, .blockEnd, .streamEnd]

/-- The parts of the settings, and their scans behind a name and without one. -/
theorem startSettings_scan :
    startSettings.toList = Scan.settingsBehind startComment startLines ∧
      startSettings.toList.all isAllowed = true ∧
      startComment.all (!isBreak ·) = true ∧
      (startComment ++ '\n' :: 'o' :: startLines).all (!Scan.isSign ·) = true ∧
      (Scan.settingsStart (startComment ++ '\n' :: 'o' :: startLines)).run? 40 = some startTokens ∧
      (Scan.valueStart startSettings.toList).run? 40 = some startTokens := by
  -- the texts are taken apart first: they are slow to evaluate as a whole
  simp only [startComment, startLines, startSettings, String.toList_append, String.reduceToList]
  decide +kernel

theorem run?_startHead (fuel : Nat) (rest : List Char) :
    (Scan.start (startHead.toList ++ rest)).run? (fuel + 2) =
      ((Scan.valueStart rest).run? fuel).map (nameTokens ++ ·) := by
  rw [← Scan.run?_behind nameTokens 36]
  cbv

variable {name : String} {ts : List Token}

/-- A new configuration is scanned from its name on. -/
theorem tokens?_startConfig (name : String) :
    ∃ fuel, 40 ≤ fuel ∧ tokens? (startConfig name) =
      if name.toList.all isAllowed then
        ((Scan.valueStart (name.toList ++ startSettings.toList)).run? (fuel + 1)).map (nameTokens ++ ·)
      else none := by
  obtain ⟨parts, allowed, -⟩ := startSettings_scan
  have text : (startConfig name).toList = startHead.toList ++ (name.toList ++ startSettings.toList) := by
    simp only [startConfig, String.toList_append, List.append_assoc]
  have head : startHead.toList.all isAllowed = true := by cbv
  have width : startHead.toList.length = 37 := by cbv
  have enough := parts ▸ Scan.length_settingsBehind startComment startLines
  generalize startSettings.toList = settings at text allowed enough ⊢
  have length : (startConfig name).toList.length + 1 =
      name.toList.length + settings.length + 35 + 1 + 2 := by
    rw [text, List.length_append, List.length_append, width]
    omega
  refine ⟨name.toList.length + settings.length + 35, by omega, ?_⟩
  simp only [tokens?, length]
  rw [text, run?_startHead, List.all_append, List.all_append, head, allowed, Bool.true_and,
    Bool.and_true]

theorem tokens?_of_plainLine (plain : isPlainLine name.toList = true) :
    tokens? (startConfig name) = some (nameTokens ++ .scalar name .plain :: startTokens) := by
  obtain ⟨parts, -, -, -, settings, -⟩ := startSettings_scan
  obtain ⟨fuel, enough, tokens⟩ := tokens?_startConfig name
  have allowed : name.toList.all isAllowed = true := by
    simp only [isPlainLine, Bool.and_eq_true] at plain
    exact plain.1.1
  rw [tokens, if_pos allowed, parts, Scan.settingsBehind, Scan.run?_plainLine plain,
    Scan.run?_mono settings enough, String.ofList_toList]
  rfl

theorem tokens?_of_empty : tokens? (startConfig "") = some (nameTokens ++ startTokens) := by
  obtain ⟨-, -, -, -, -, settings⟩ := startSettings_scan
  obtain ⟨fuel, enough, tokens⟩ := tokens?_startConfig ""
  rw [tokens, String.toList_empty, if_pos (by rfl), List.nil_append,
    Scan.run?_mono settings (Nat.le_succ_of_le enough)]
  rfl

def startedConfig (name : String) : ProjectConfig := ⟨name, ".", "bidders", .standard⟩

theorem ofText?_startConfig (h : name = "" ∨ isPlainLine name.toList = true) :
    ProjectConfig.ofText? (startConfig name) = some (startedConfig name) := by
  rw [ProjectConfig.ofText?, readText?, Document.ofText?]
  obtain rfl | plain := h
  · rw [tokens?_of_empty]
    cbv
  · rw [tokens?_of_plainLine plain]
    cbv

theorem exists_tokens_of_ofText? {text : String} {c : ProjectConfig}
    (h : ProjectConfig.ofText? text = some c) : ∃ ts, tokens? text = some ts := by
  obtain ⟨d, made, -⟩ := Option.bind_eq_some_iff.1 h
  obtain ⟨ts, tokens, -⟩ := Option.bind_eq_some_iff.1 made
  exact ⟨ts, tokens⟩

/-- The configuration of a new project gives back the names that it can hold as they are, and no other
ones: those that are not read as something else, cut off or taken for a fault. -/
theorem ofText?_startConfig_name_iff (name : String) :
    (∃ c, ProjectConfig.ofText? (startConfig name) = some c ∧ c.name = name) ↔
      name = "" ∨ isPlainLine name.toList = true := by
  constructor
  · rintro ⟨c, read, own⟩
    obtain ⟨parts, -, line, unsigned, -⟩ := startSettings_scan
    obtain ⟨ts, tokens⟩ := exists_tokens_of_ofText? read
    obtain ⟨fuel, -, scanned⟩ := tokens?_startConfig name
    rw [tokens, parts] at scanned
    split at scanned
    · next allowed =>
      obtain ⟨us, run, rfl⟩ := Option.map_eq_some_iff.1 scanned.symm
      obtain none_ | text := ofText?_name tokens read
      · exact .inl (own.symm.trans none_)
      · rw [own, ← String.ofList_toList (s := name)] at text
        have plain := Scan.isPlainLine_of_value line unsigned allowed run (nodeText?_unkeyed text)
        exact plain.imp_left String.toList_eq_nil_iff.1
    · cases scanned
  · exact fun h => ⟨_, ofText?_startConfig h, rfl⟩

end Project

end AdapterForge
