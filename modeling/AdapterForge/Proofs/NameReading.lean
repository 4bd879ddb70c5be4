import AdapterForge.Proofs.ScanSteps
import AdapterForge.Project.Config

/-!
The name of a project in the tokens of its configuration: when the name comes first, it is the text
of the node behind its key, or that node is empty.
-/
namespace AdapterForge.Yaml

open Token

/-- A node that has its text, if any, from the tokens that it is made of. -/
def Node.TextFrom (v : Node) (ts : List Token) : Prop :=
  match v with
  | .scalar text _ _ => text = "" ∨ nodeText? ts = some text
  | .alias _ => False
  | _ => True

theorem Node.TextFrom.congr {v : Node} {ts us : List Token} (textFrom : v.TextFrom ts)
    (same : nodeText? ts = nodeText? us) : v.TextFrom us := by
  cases v with
  | scalar text style tag => exact textFrom.imp_right fun own => same ▸ own
  | _ => exact textFrom

theorem bind_eq_some {σ α β : Type} {x : StateT σ Option α} {f : α → StateT σ Option β} {s s' : σ}
    {b : β} (h : (x >>= f).run s = some (b, s')) :
    ∃ a s₁, x.run s = some (a, s₁) ∧ (f a).run s₁ = some (b, s') := by
  rw [StateT.run_bind] at h
  obtain ⟨⟨a, s₁⟩, first, rest⟩ := Option.bind_eq_some_iff.1 h
  exact ⟨a, s₁, first, rest⟩

namespace Assembly

variable {s s' : Assembly} {v : Node}

theorem anchorHere_text {a : Option String} (h : anchorHere.run s = some (a, s')) :
    nodeText? s'.tokens = nodeText? s.tokens := by
  obtain ⟨ts, leads, names, places, anchored⟩ := s
  match ts with
  | [] => cases h; rfl
  | t :: ts => cases t <;> cases h <;> rfl

theorem resolveTag_state {name : String} {suffix t : Tag}
    (h : (resolveTag name suffix).run s = some (t, s')) : s' = s := by
  rw [resolveTag] at h
  split at h
  · cases h
    rfl
  · obtain ⟨s₁, s₂, got, h⟩ := bind_eq_some h
    cases got
    split at h <;> cases h
    rfl

theorem tagHere_text {t : Option Tag} (h : tagHere.run s = some (t, s')) :
    nodeText? s'.tokens = nodeText? s.tokens := by
  obtain ⟨ts, leads, names, places, anchored⟩ := s
  match ts with
  | [] => cases h; rfl
  | u :: ts =>
    cases u with
    | tag name suffix =>
      obtain ⟨t', s₁, resolved, same⟩ :
          ∃ t' s₁, (resolveTag name suffix).run ⟨ts, leads, names, places, anchored⟩ = some (t', s₁) ∧
            some (some t', s₁) = some (t, s') := bind_eq_some h
      cases same
      rw [resolveTag_state resolved]
      rfl
    | _ => cases h; rfl

theorem properties_text {p : Option String × Option Tag} (h : properties.run s = some (p, s')) :
    nodeText? s'.tokens = nodeText? s.tokens := by
  obtain ⟨a, s₁, first, h⟩ := bind_eq_some h
  rw [← anchorHere_text first]
  cases a with
  | some a =>
    obtain ⟨t, s₂, second, h⟩ := bind_eq_some h
    cases h
    exact tagHere_text second
  | none =>
    obtain ⟨t, s₂, second, h⟩ := bind_eq_some h
    rw [← tagHere_text second]
    cases t with
    | some t =>
      obtain ⟨a, s₃, third, h⟩ := bind_eq_some h
      cases h
      exact anchorHere_text third
    | none => cases h; rfl

theorem textFrom_of_empty {marked : Bool} {tag : Option Tag} {ts : List Token}
    (h : (if marked then pure (.scalar "" .plain tag) else failure : Step Node).run s = some (v, s')) :
    v.TextFrom ts := by
  cases marked <;> cases h
  exact .inl rfl

theorem content_textFrom {fuel : Nat} {inBlock unindented marked : Bool} {tag : Option Tag}
    (h : (content fuel inBlock unindented marked tag).run s = some (v, s')) : v.TextFrom s.tokens := by
  match fuel with
  | 0 => cases h
  | fuel + 1 =>
    rw [content] at h
    obtain ⟨t, s₁, peeked, h⟩ := bind_eq_some h
    obtain ⟨ts, leads, names, places, anchored⟩ := s
    match ts with
    | [] =>
      cases peeked
      exact textFrom_of_empty h
    | u :: ts =>
      cases peeked
      cases u with
      | scalar text style =>
        cases h
        exact .inr rfl
      -- a collection has no text, so nothing is asked of the tokens
      | flowSequence | flowMapping =>
        obtain ⟨_, s₂, -, h⟩ := bind_eq_some h
        obtain ⟨l, s₃, -, h⟩ := bind_eq_some h
        cases h
        trivial
      | blockEntry =>
        cases unindented with
        | true =>
          obtain ⟨l, s₂, -, h⟩ := bind_eq_some h
          cases h
          trivial
        | false => exact textFrom_of_empty h
      | blockSequence | blockMapping =>
        cases inBlock with
        | true =>
          obtain ⟨_, s₂, -, h⟩ := bind_eq_some h
          obtain ⟨l, s₃, -, h⟩ := bind_eq_some h
          cases h
          trivial
        | false => exact textFrom_of_empty h
      | _ => exact textFrom_of_empty h

/-- No alias stands for a node as long as no name is given. -/
theorem node_textFrom {fuel : Nat} {inBlock unindented : Bool} (names : s.names = [])
    (h : (node fuel inBlock unindented).run s = some (v, s')) : v.TextFrom s.tokens := by
  match fuel with
  | 0 => cases h
  | fuel + 1 =>
    rw [node] at h
    obtain ⟨t, s₁, peeked, h⟩ := bind_eq_some h
    cases peeked
    split at h
    · obtain ⟨_, s₂, skipped, h⟩ := bind_eq_some h
      cases skipped
      obtain ⟨s₃, s₄, got, h⟩ := bind_eq_some h
      cases got
      rw [names] at h
      cases h
    · obtain ⟨p, s₂, props, h⟩ := bind_eq_some h
      obtain ⟨name, tag⟩ := p
      obtain ⟨place, s₃, declared, h⟩ := bind_eq_some h
      obtain ⟨v', s₄, made, h⟩ := bind_eq_some h
      have tokens : s₃.tokens = s₂.tokens := by
        cases name <;> cases declared <;> rfl
      have same : v' = v := by
        cases place <;> cases h <;> rfl
      have textFrom := content_textFrom made
      rw [tokens, same] at textFrom
      exact textFrom.congr (properties_text props)

theorem blockPart_textFrom {fuel : Nat} (names : s.names = [])
    (h : (blockPart fuel).run s = some (v, s')) : v.TextFrom s.tokens := by
  match fuel with
  | 0 => cases h
  | fuel + 1 =>
    rw [blockPart] at h
    obtain ⟨t, s₁, peeked, h⟩ := bind_eq_some h
    cases peeked
    split at h
    · cases h
      exact .inl rfl
    · exact node_textFrom names h

end Assembly

def nameTokens : List Token := [.blockMapping, .key, .scalar "name" .plain, .value]

namespace Assembly

theorem document_named (fuel : Nat) (ts : List Token) :
    (document (fuel + 8)).run ⟨nameTokens ++ ts, [], [], [], []⟩ =
      (((((blockPart (fuel + 5)).run ⟨ts, standardHandles, [], [], []⟩).bind fun p =>
        ((blockMembers (fuel + 5)).run p.2).bind fun q =>
          some ((.scalar "name" .plain none, p.1) :: q.1, q.2)).bind fun l =>
        some (Node.mapping none l.1, l.2)).bind fun v => some (v.1, v.2)).bind fun v =>
      ((ends (fuel + 8)).run v.2).bind fun e => some (v.1, e.2) := rfl

theorem document_textFrom {fuel : Nat} {ts : List Token} {root : Node} {s : Assembly}
    (h : (document (fuel + 8)).run ⟨nameTokens ++ ts, [], [], [], []⟩ = some (root, s)) :
    ∃ v members, root = .mapping none ((.scalar "name" .plain none, v) :: members) ∧ v.TextFrom ts := by
  rw [document_named] at h
  obtain ⟨⟨v, s₁⟩, made, h⟩ := Option.bind_eq_some_iff.1 h
  obtain ⟨_, _, h⟩ := Option.bind_eq_some_iff.1 h
  cases h
  obtain ⟨⟨v', s₂⟩, mapping, h⟩ := Option.bind_eq_some_iff.1 made
  cases h
  obtain ⟨⟨l, s₃⟩, members, h⟩ := Option.bind_eq_some_iff.1 mapping
  cases h
  obtain ⟨⟨v, s₄⟩, part, h⟩ := Option.bind_eq_some_iff.1 members
  obtain ⟨⟨r, s₅⟩, -, h⟩ := Option.bind_eq_some_iff.1 h
  cases h
  exact ⟨v, r, rfl, blockPart_textFrom rfl part⟩

end Assembly

section Reading

open AdapterForge.Document DocumentNode

variable {d : Document} {room : Nat} {v : Node} {members : List (Node × Node)} {left left' : Nat}

theorem record?_first {known : List String} {f : String → Option Cursor}
    (h : (record? known (⟨.mapping none ((.scalar "name" .plain none, v) :: members), room, d⟩ : Cursor) :
      Jumps _).run left = some (f, left')) :
    ∃ room, f "name" = some ⟨v, room, d⟩ := by
  obtain ⟨m, left₁, read, h⟩ := bind_eq_some h
  obtain ⟨c, left₂, followed, read⟩ := bind_eq_some read
  cases followed
  obtain ⟨keys, left₃, keyed, read⟩ := bind_eq_some read
  rw [List.mapM_cons] at keyed
  obtain ⟨k, left₄, first, keyed⟩ := bind_eq_some keyed
  cases first
  obtain ⟨ks, left₅, -, keyed⟩ := bind_eq_some keyed
  cases keyed
  obtain ⟨cs, left₆, entered, read⟩ := bind_eq_some read
  cases read
  cases room with
  | zero => cases entered
  | succ room =>
    cases entered
    rw [Members.fields?] at h
    split at h
    · cases h
      exact ⟨room, by simp⟩
    · cases h

theorem text?_textFrom {ts : List Token} {text : String} (textFrom : v.TextFrom ts)
    (h : (text? (⟨v, room, d⟩ : Cursor) : Jumps _).run left = some (text, left')) :
    text = "" ∨ nodeText? ts = some text := by
  obtain ⟨c, left₁, followed, h⟩ := bind_eq_some h
  rcases v with ⟨own, style, tag⟩ | _ | _ | n
  · cases followed
    cases h
    exact textFrom
  · cases followed
    cases h
  · cases followed
    cases h
  · cases textFrom

theorem read?_name {ts : List Token} {c : ProjectConfig} (textFrom : v.TextFrom ts)
    (h : (ProjectConfig.read? (⟨.mapping none ((.scalar "name" .plain none, v) :: members), room, d⟩ :
      Cursor) : Jumps _).run left = some (c, left')) :
    c.name = "" ∨ nodeText? ts = some c.name := by
  obtain ⟨f, left₁, record, h⟩ := bind_eq_some h
  obtain ⟨room', first⟩ := record?_first record
  obtain ⟨name, left₂, read, h⟩ := bind_eq_some h
  obtain ⟨_, left₃, -, h⟩ := bind_eq_some h
  obtain ⟨_, left₄, -, h⟩ := bind_eq_some h
  obtain ⟨_, left₅, -, h⟩ := bind_eq_some h
  cases h
  obtain ⟨c, left₆, found, read⟩ := bind_eq_some read
  rw [first] at found
  cases found
  exact text?_textFrom textFrom read

end Reading

/-- A configuration that starts with a name has it from the node behind its key. -/
theorem ofText?_name {text : String} {ts : List Token} {c : ProjectConfig}
    (tokens : tokens? text = some (nameTokens ++ ts)) (h : ProjectConfig.ofText? text = some c) :
    c.name = "" ∨ nodeText? ts = some c.name := by
  rw [ProjectConfig.ofText?, readText?] at h
  obtain ⟨d, made, h⟩ := Option.bind_eq_some_iff.1 h
  rw [Document.ofText?, tokens, Option.bind_eq_bind, Option.bind_some] at made
  obtain ⟨⟨root, s⟩, parsed, made⟩ := Option.bind_eq_some_iff.1 made
  obtain rfl := Option.some.inj made
  have fuel : 4 * (nameTokens ++ ts).length + 8 = 4 * ts.length + 16 + 8 := by
    rw [List.length_append, nameTokens]
    simp only [List.length_cons, List.length_nil]
    omega
  rw [fuel] at parsed
  obtain ⟨v, members, rfl, textFrom⟩ := Assembly.document_textFrom parsed
  rw [StateT.run'_eq] at h
  obtain ⟨⟨c', left⟩, read, rfl⟩ := Option.map_eq_some_iff.1 h
  exact read?_name textFrom read

end AdapterForge.Yaml
