import Mathlib.Data.List.Nodup
import AdapterForge.Description.Check
import AdapterForge.Description.Reading

/-!
Descriptions read back from what is written of them. Each way to read a member undoes the way that
the member is written, whether it is there or left out, so a record is read back member by member.
-/
namespace AdapterForge

namespace Document

open DocumentNode

variable {α : Type} {k : String} {f : String → Option Written} {read : Written → Option α}
  {w : α → Written}

theorem record?_object {l : List (String × Written)} (h : (l.map (·.1)).Nodup)
    (known : List String) : record? known (.object l) = some fun k => l.lookup k := by
  have honce : (known.all fun k => (l.filter (·.1 = k)).length ≤ 1) = true := by
    rw [List.all_eq_true]
    intro k _
    have hcount : (l.filter (·.1 = k)).length = (l.map (·.1)).count k := by
      rw [List.count, List.countP_map, List.countP_eq_length_filter]
      rfl
    rw [hcount]
    simpa using List.nodup_iff_count_le_one.1 h k
  change (Members.named l).fields? known = _
  rw [Members.fields?, if_pos honce]

theorem required_eq {a : α} (hf : f k = some (w a)) (h : read (w a) = some a) :
    required f k read = some a := by
  have hk : required f k read = (f k).bind read := rfl
  rw [hk, hf, Option.bind_some, h]

theorem withDefault_eq {a default : α} (hf : f k = some (w a)) (h : read (w a) = some a) :
    withDefault f k read default = some a := by
  rw [withDefault, hf]
  exact h

theorem explicit_eq {o : Option α} (hf : f k = o.map w) (h : ∀ a, read (w a) = some a) :
    explicit f k read = some o := by
  rw [explicit, hf]
  cases o with
  | none => rfl
  | some a =>
    rw [Option.map_some]
    dsimp only
    rw [h a]
    rfl

theorem optional_eq {o : Option α} (hf : f k = o.map w) (h : ∀ a, read (w a) = some a)
    (hnull : ∀ a, w a ≠ .null) : optional f k read = some o := by
  rw [optional, hf]
  cases o with
  | none => rfl
  | some a =>
    have hoption : option? (w a) = some (some (w a)) := by
      have ha := hnull a
      revert ha
      cases w a <;> simp [option?]
    rw [Option.map_some]
    dsimp only
    rw [hoption]
    change (read (w a)).bind (fun b => some (some b)) = _
    rw [h a, Option.bind_some]

theorem list_eq {l : List α} (h : ∀ a, read (w a) = some a) :
    list read (.array (l.map w)) = some l := by
  change (l.map w).mapM read = some l
  induction l with
  | nil => rfl
  | cons a l ih =>
    rw [List.map_cons, List.mapM_cons, h a, ih]
    rfl

theorem choice_eq {ofName? : String → Option α} {name : α → String}
    (h : ∀ a, ofName? (name a) = some a) (a : α) : choice ofName? (Written.string (name a)) = some a :=
  h a

theorem text?_string (s : String) : text? (Written.string s) = some s := rfl

end Document

section

variable {α : Type} {k j : String} {w : α → Written}

@[simp] theorem lookup_memberOf_append (o : Option α) (l : List (String × Written)) :
    (memberOf k w o ++ l).lookup j =
      if j = k then (o.map w).or (l.lookup j) else l.lookup j := by
  cases o with
  | none => simp [memberOf]
  | some a =>
    rw [memberOf, List.singleton_append, List.lookup_cons]
    by_cases h : j = k
    · simp [h]
    · simp [h, beq_eq_false_iff_ne.2 h]

@[simp] theorem lookup_memberOf (o : Option α) :
    (memberOf k w o).lookup j = if j = k then o.map w else none := by
  rw [← List.append_nil (memberOf k w o), lookup_memberOf_append]
  cases o <;> rfl

theorem keys_memberOf_sublist (o : Option α) : ((memberOf k w o).map (·.1)).Sublist [k] := by
  cases o with
  | none => exact List.nil_sublist _
  | some a => exact .refl _

end

open Document DocumentNode

theorem Param.read?_write (p : Param) : (Param.read? p.write : Option Param) = some p := by
  obtain ⟨name, type⟩ := p
  let f : String → Option Written := fun k =>
    [("name", Written.string name), ("type", .string type.name)].lookup k
  have hf : record? ["name", "type"] (Param.write ⟨name, type⟩) = some f :=
    record?_object (by simp) _
  have hname : required f "name" text? = some name :=
    required_eq (w := Written.string) rfl (text?_string name)
  have htype : required f "type" (choice ParamType.ofName?) = some type :=
    required_eq (w := fun t => Written.string (ParamType.name t)) rfl
      (choice_eq ParamType.ofName?_name type)
  simp only [Param.read?, hf, hname, htype, Option.bind_eq_bind, Option.bind_some, Option.pure_def]

theorem Rule.read?_write (r : Rule) : (Rule.read? r.write : Option Rule) = some r := by
  obtain ⟨target, value, source⟩ := r
  let members : List (String × Written) := ("target", .string target) ::
    (memberOf "staticValue" id value ++ memberOf "from" Written.string source)
  let f : String → Option Written := fun k => members.lookup k
  have hkeys : (members.map (·.1)).Nodup := by
    have hsub : (members.map (·.1)).Sublist ["target", "staticValue", "from"] := by
      simp only [members, List.map_cons, List.map_append]
      exact ((keys_memberOf_sublist value).append (keys_memberOf_sublist source)).cons_cons _
    exact hsub.nodup (by decide)
  have hf : record? ["target", "staticValue", "from"] (Rule.write ⟨target, value, source⟩) =
      some f := record?_object hkeys _
  have htarget : required f "target" text? = some target :=
    required_eq (w := Written.string) rfl (text?_string target)
  have hvalue : explicit f "staticValue" value? = some value :=
    explicit_eq (w := id) (by simp [f, members, List.lookup_cons]) fun _ => rfl
  have hsource : optional f "from" text? = some source :=
    optional_eq (w := Written.string) (by simp [f, members, List.lookup_cons]) text?_string
      (by simp)
  simp only [Rule.read?, hf, htarget, hvalue, hsource, Option.bind_eq_bind, Option.bind_some,
    Option.pure_def]

theorem Endpoint.read?_write (e : Endpoint) : (Endpoint.read? e.write : Option Endpoint) = some e := by
  obtain ⟨url, usersyncUrl⟩ := e
  let members : List (String × Written) :=
    ("endpointUrl", .string url) :: memberOf "usersyncerUrl" Written.string usersyncUrl
  let f : String → Option Written := fun k => members.lookup k
  have hkeys : (members.map (·.1)).Nodup := by
    have hsub : (members.map (·.1)).Sublist ["endpointUrl", "usersyncerUrl"] :=
      (keys_memberOf_sublist usersyncUrl).cons_cons _
    exact hsub.nodup (by decide)
  have hf : record? ["endpointUrl", "usersyncerUrl"] (Endpoint.write ⟨url, usersyncUrl⟩) = some f :=
    record?_object hkeys _
  have hurl : required f "endpointUrl" text? = some url :=
    required_eq (w := Written.string) rfl (text?_string url)
  have husersync : optional f "usersyncerUrl" text? = some usersyncUrl :=
    optional_eq (w := Written.string) (by simp [f, members, List.lookup_cons]) text?_string
      (by simp)
  simp only [Endpoint.read?, hf, hurl, husersync, Option.bind_eq_bind, Option.bind_some,
    Option.pure_def]

theorem vendorId?_writeVendorId (n : UInt32) : vendorId? (writeVendorId n) = some n := by
  have hcount : count? (writeVendorId n) = some n.toNat := by
    change (if (0 : Int) ≤ n.toNat then some (n.toNat : Int).toNat else none) = _
    rw [if_pos (Int.natCast_nonneg _), Int.toNat_natCast]
  have hlt : n.toNat < 2 ^ 32 := n.toNat_lt
  rw [vendorId?, hcount]
  change (if n.toNat < 2 ^ 32 then some (UInt32.ofNat n.toNat) else none) = _
  rw [if_pos hlt, UInt32.ofNat_toNat]

theorem MetaInfo.read?_write (m : MetaInfo) : (MetaInfo.read? m.write : Option MetaInfo) = some m := by
  obtain ⟨email, app, site, vendorId⟩ := m
  let members : List (String × Written) := memberOf "maintainerEmail" Written.string email ++
    [("appMediaTypes", .array (app.map .string)), ("siteMediaTypes", .array (site.map .string))] ++
    memberOf "vendorId" writeVendorId vendorId
  let f : String → Option Written := fun k => members.lookup k
  have hkeys : (members.map (·.1)).Nodup := by
    have hsub : (members.map (·.1)).Sublist
        ["maintainerEmail", "appMediaTypes", "siteMediaTypes", "vendorId"] := by
      simp only [members, List.map_append]
      exact ((keys_memberOf_sublist email).append (.refl _)).append (keys_memberOf_sublist vendorId)
    exact hsub.nodup (by decide)
  have hf : record? ["maintainerEmail", "appMediaTypes", "siteMediaTypes", "vendorId"]
      (MetaInfo.write ⟨email, app, site, vendorId⟩) = some f := record?_object hkeys _
  have hemail : optional f "maintainerEmail" text? = some email :=
    optional_eq (w := Written.string) (by simp [f, members, List.lookup_cons]) text?_string
      (by simp)
  have happ : withDefault f "appMediaTypes" (list text?) [] = some app :=
    withDefault_eq (w := fun l => Written.array (l.map Written.string))
      (by simp [f, members, List.lookup_cons]) (list_eq text?_string)
  have hsite : withDefault f "siteMediaTypes" (list text?) [] = some site :=
    withDefault_eq (w := fun l => Written.array (l.map Written.string))
      (by simp [f, members, List.lookup_cons]) (list_eq text?_string)
  have hvendor : optional f "vendorId" vendorId? = some vendorId :=
    optional_eq (w := writeVendorId) (by simp [f, members, List.lookup_cons])
      vendorId?_writeVendorId (by simp [writeVendorId])
  simp only [MetaInfo.read?, hf, hemail, happ, hsite, hvendor, Option.bind_eq_bind,
    Option.bind_some, Option.pure_def]

theorem Usersync.read?_write (u : Usersync) : (Usersync.read? u.write : Option Usersync) = some u := by
  obtain ⟨cookie, params⟩ := u
  let members : List (String × Written) :=
    memberOf "cookieFamilyName" Written.string cookie ++ memberOf "urlParams" Written.string params
  let f : String → Option Written := fun k => members.lookup k
  have hkeys : (members.map (·.1)).Nodup := by
    have hsub : (members.map (·.1)).Sublist ["cookieFamilyName", "urlParams"] := by
      simp only [members, List.map_append]
      exact (keys_memberOf_sublist cookie).append (keys_memberOf_sublist params)
    exact hsub.nodup (by decide)
  have hf : record? ["cookieFamilyName", "urlParams"] (Usersync.write ⟨cookie, params⟩) = some f :=
    record?_object hkeys _
  have hcookie : optional f "cookieFamilyName" text? = some cookie :=
    optional_eq (w := Written.string) (by simp [f, members]) text?_string (by simp)
  have hparams : optional f "urlParams" text? = some params :=
    optional_eq (w := Written.string) (by simp [f, members]) text?_string (by simp)
  simp only [Usersync.read?, hf, hcookie, hparams, Option.bind_eq_bind, Option.bind_some,
    Option.pure_def]

namespace Description

theorem read?_write (d : Description) : (read? d.write : Option Description) = some d := by
  obtain ⟨name, strategy, endpoint, metaInfo, usersync, params, rules⟩ := d
  let f : String → Option Written := fun k =>
    [("bidderName", .string name), ("strategy", .string strategy.name),
      ("properties", endpoint.write), ("metaInfo", metaInfo.write), ("usersyncer", usersync.write),
      ("bidderParams", .array (params.map Param.write)),
      ("transformations", .array (rules.map Rule.write))].lookup k
  have hf : record? memberNames
      (write ⟨name, strategy, endpoint, metaInfo, usersync, params, rules⟩) = some f :=
    record?_object (by simp) _
  have hname : required f "bidderName" text? = some name :=
    required_eq (w := Written.string) rfl (text?_string name)
  have hstrategy :
      withDefault f "strategy" (choice Strategy.ofName?) .singleRequest = some strategy :=
    withDefault_eq (w := fun t => Written.string (Strategy.name t)) rfl
      (choice_eq Strategy.ofName?_name strategy)
  have hendpoint : required f "properties" Endpoint.read? = some endpoint :=
    required_eq rfl endpoint.read?_write
  have hmetaInfo : withDefault f "metaInfo" MetaInfo.read? .none = some metaInfo :=
    withDefault_eq rfl metaInfo.read?_write
  have husersync : withDefault f "usersyncer" Usersync.read? .none = some usersync :=
    withDefault_eq rfl usersync.read?_write
  have hparams : withDefault f "bidderParams" (list Param.read?) [] = some params :=
    withDefault_eq (w := fun l => .array (l.map Param.write)) rfl (list_eq Param.read?_write)
  have hrules : withDefault f "transformations" (list Rule.read?) [] = some rules :=
    withDefault_eq (w := fun l => .array (l.map Rule.write)) rfl (list_eq Rule.read?_write)
  simp only [read?, hf, hname, hstrategy, hendpoint, hmetaInfo, husersync, hparams, hrules,
    Option.bind_eq_bind, Option.bind_some, Option.pure_def]

/-- A description that passes its check is written as a value that reads back as the same
description, which passes again. -/
theorem written_reads_back (d : Description) (h : d.check = .ok d) :
    (read? d.write : Option Description).map check = some (.ok d) := by
  rw [read?_write, Option.map_some, h]

/-- A rule that writes null, one that does so and copies as well, and one that does neither. -/
def nullDescription : Description where
  name := "sample"
  strategy := .requestPerImp
  endpoint := ⟨"https://sample.test", some ""⟩
  metaInfo := ⟨none, [], ["video"], some 4294967295⟩
  usersync := ⟨none, some "?a=b"⟩
  params := [⟨"type", .float⟩]
  rules := [⟨"imp.bidfloor", some .null, none⟩, ⟨"tmax", some (.object [("a", .null)]), some ""⟩,
    ⟨"site", none, none⟩]

theorem written_reads_back_null :
    nullDescription.check = .ok nullDescription ∧
      (read? nullDescription.write : Option Description).map check = some (.ok nullDescription) := by
  have h : nullDescription.check = .ok nullDescription := by decide
  exact ⟨h, written_reads_back nullDescription h⟩

end Description

end AdapterForge
