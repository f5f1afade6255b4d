import Lowering.Yaml.Reading

/-!
Reading mappings entry by entry into something that is filled up. The entry with the merge key is
not one of them: it names mappings whose entries are taken as well, where the mapping itself and the
mappings before them have no entry of that key.
-/

namespace Lowering.Yaml

/-- How a mapping fills up a `σ`, by keys of type `κ` that count as seen by their form `τ`. -/
structure Filling (σ κ τ : Type) where
  /-- What is done before the entries of each mapping. -/
  start : σ → σ
  key : Node → Reading (Option κ)
  form : κ → τ
  /-- The form of a key of a mapping that others are merged into. -/
  seen : Node → Reading (Option τ)
  /-- Takes an entry, whose key was read from a node. -/
  take : κ → Node → Node → σ → Reading σ

def isMergeKey : Node → Bool
  | .scalar _ tag text => tag == "!!merge" && text == "<<"
  | _ => false

/-- The keys that count as seen. There are none outside a merge. -/
abbrev Seen (τ : Type) := Option (List τ)

namespace Filling
variable {σ κ τ : Type} [BEq τ]

/-- Takes the entries other than merges, if their keys have not been seen. -/
def entries (f : Filling σ κ τ) : Seen τ → List (Node × Node) → σ → Reading (σ × Seen τ)
  | seen, [], s => pure (s, seen)
  | seen, (key, value) :: rest, s => do
    if isMergeKey key then f.entries seen rest s
    else match ← f.key key with
      | none => f.entries seen rest s
      | some k =>
        match seen with
        | none =>
          let s ← f.take k key value s
          f.entries none rest s
        | some known =>
          if known.contains (f.form k) then f.entries seen rest s
          else
            let s ← f.take k key value s
            f.entries (some (f.form k :: known)) rest s

/-- The keys of a mapping that others are merged into. -/
def ownKeys (f : Filling σ κ τ) (entries : List (Node × Node)) : Reading (List τ) :=
  elements f.seen (entries.map Prod.fst)

/-- Fills up `s` from a mapping whose keys differ; `fuel` bounds how deep merges are nested. -/
def fill (f : Filling σ κ τ) : Nat → Seen τ → List (Node × Node) → σ → Reading (σ × Seen τ)
  | 0, _, _, _ => throw .malformed
  | fuel + 1, seen, entries, s => do
    let (s, seen) ← f.entries seen entries (f.start s)
    match (entries.filter fun (key, _) => isMergeKey key).getLast? with
    | none => pure (s, seen)
    | some (_, source) =>
      let known ← match seen with
        | some known => pure known
        | none => f.ownKeys entries
      let mapping (found : σ × List τ) (n : Node) : Reading (σ × List τ) := do
        match (← readThe Declared).target n with
        | .mapping .. =>
          follow (fun
            | .mapping _ _ entries => do
              if ← distinctKeys entries then
                let (s, seen) ← f.fill fuel (some found.2) entries found.1
                pure (s, seen.getD [])
              else pure found
            | _ => pure found) n
        | _ => throw .malformed
      let (s, known) ← match source with
        | .sequence _ _ items => items.foldlM mapping (s, known)
        | source => mapping (s, known) source
      pure (s, seen.map fun _ => known)

end Filling

/-- More than the depth of any document, each alias being followed once. -/
def Declared.depth (d : Declared) : Nat := (d.size + 1) * (d.aliases + 1)

end Lowering.Yaml
