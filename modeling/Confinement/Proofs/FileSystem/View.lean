import Mathlib.Data.List.Induction
import Mathlib.Data.List.Nodup
import Confinement.FileSystem.Write
import Confinement.Proofs.Path.Words

/-!
# A tree seen node by node

The face of a node is the node without its entries, and `n.look l` is the face
at a location.  A replaced node shows at its location and below, and nowhere
else (`look_put`).

In a well-formed tree a directory has each name once, names are what a path
can spell, and links lead somewhere.  Replacing a node by a well-formed one
keeps a tree well-formed (`WellFormed.put`).
-/

namespace Confinement

/-- A node without what is below it. -/
inductive Face where
  | file (mode : Mode) (content : Bytes)
  | link (target : Path)
  | pipe (mode : Mode)
  | directory (mode : Mode)
  deriving DecidableEq

namespace Node

variable {n x node : Node} {l m : Location} {name : Bytes} {mode : Mode} {es : Entries}

def face : Node → Face
  | .file mode content => .file mode content
  | .link target => .link target
  | .pipe mode => .pipe mode
  | .directory mode _ => .directory mode

/-- The bytes of a file; nothing else has any. -/
def content : Node → Bytes
  | .file _ content => content
  | _ => []

/-- The face of the node at a location. -/
def look (n : Node) (l : Location) : Option Face := (n.at? l).map face

/-! ## Looking down a tree -/

theorem mode_eq_of_face {node node' : Node} (h : node'.face = node.face) :
    node'.mode = node.mode := by
  cases node <;> cases node' <;> simp_all [Node.face, Node.mode]

theorem content_eq_of_face {node node' : Node} (h : node'.face = node.face) :
    node'.content = node.content := by
  cases node <;> cases node' <;> simp_all [Node.face, Node.content]

theorem isDirectory_eq_of_face {node node' : Node} (h : node'.face = node.face) :
    node'.isDirectory = node.isDirectory := by
  cases node <;> cases node' <;> simp_all [Node.face, Node.isDirectory]

theorem at?_append (n : Node) (l m : Location) : n.at? (l ++ m) = (n.at? l).bind (·.at? m) := by
  induction l generalizing n with
  | nil => rfl
  | cons name l ih =>
      rw [List.cons_append, at?, at?, Option.bind_assoc]
      exact congrArg _ (funext ih)

theorem at?_concat (n : Node) (l : Location) (name : Bytes) :
    n.at? (l ++ [name]) = (n.at? l).bind (·.entries.lookup name) := by
  rw [at?_append]
  refine congrArg _ (funext fun node => ?_)
  cases h : node.entries.lookup name <;> simp [at?, h]

theorem look_append (h : n.at? l = some node) (m : Location) : n.look (l ++ m) = node.look m := by
  rw [look, at?_append, h]
  rfl

theorem look_eq_directory_iff :
    n.look l = some (.directory mode) ↔ ∃ es, n.at? l = some (.directory mode es) := by
  constructor
  · intro h
    obtain ⟨node, hat, hface⟩ := Option.map_eq_some_iff.mp h
    cases node <;> simp [face] at hface
    subst hface
    exact ⟨_, hat⟩
  · rintro ⟨es, hat⟩
    rw [look, hat]
    rfl

theorem lookup_of_at? (h : n.at? l = some (.directory mode es)) (name : Bytes) :
    es.lookup name = n.at? (l ++ [name]) := by
  rw [at?_concat, h]
  rfl

theorem exists_directory_of_look_concat (h : (n.look (l ++ [name])).isSome) :
    ∃ mode, n.look l = some (.directory mode) := by
  rw [look, Option.isSome_map, at?_concat] at h
  cases hat : n.at? l with
  | none => simp [hat] at h
  | some node =>
      cases node with
      | directory mode es => exact ⟨mode, by rw [look, hat]; rfl⟩
      | file | link | pipe => simp [hat, entries] at h

theorem exists_directory_of_lt (h : (n.look m).isSome) (hlm : l <+: m) (hne : l ≠ m) :
    ∃ mode, n.look l = some (.directory mode) := by
  obtain ⟨rest, rfl⟩ := hlm
  induction rest using List.reverseRecOn with
  | nil => exact absurd (List.append_nil l).symm hne
  | append_singleton rest name ih =>
      rw [← List.append_assoc] at h
      obtain ⟨mode, hmode⟩ := exists_directory_of_look_concat h
      by_cases hrest : rest = []
      · subst hrest
        rw [List.append_nil] at hmode
        exact ⟨mode, hmode⟩
      · exact ih (by rw [hmode]; rfl) fun heq => hrest (List.self_eq_append_right.mp heq)

/-- On the way down to a missing node, one name is the first to be missing. -/
theorem exists_first_missing {names : List Bytes} (h : (n.look l).isSome)
    (hnone : n.look (l ++ names) = none) :
    ∃ front first rest, names = front ++ first :: rest ∧ (n.look (l ++ front)).isSome ∧
      n.look (l ++ front ++ [first]) = none := by
  induction names generalizing l with
  | nil =>
      rw [List.append_nil] at hnone
      rw [hnone] at h
      cases h
  | cons name names ih =>
      cases hname : n.look (l ++ [name]) with
      | none => exact ⟨[], name, names, rfl, by rwa [List.append_nil], by rwa [List.append_nil]⟩
      | some face =>
          rw [← List.singleton_append, ← List.append_assoc] at hnone
          obtain ⟨front, first, rest, rfl, hfront, hfirst⟩ := ih (by rw [hname]; rfl) hnone
          refine ⟨name :: front, first, rest, rfl, ?_, ?_⟩
          · rwa [List.append_assoc] at hfront
          · rwa [List.append_assoc l] at hfirst

/-! ## All that shows -/

mutual

/-- The faces at and below a node, each with the names that lead there. -/
def faces : Node → List (Location × Face)
  | .file mode content => [([], .file mode content)]
  | .link target => [([], .link target)]
  | .pipe mode => [([], .pipe mode)]
  | .directory mode es => ([], .directory mode) :: entryFaces es

def entryFaces : List (Bytes × Node) → List (Location × Face)
  | [] => []
  | (name, node) :: rest => (faces node).map (fun e => (name :: e.1, e.2)) ++ entryFaces rest

end

theorem mem_entryFaces {c : Node} {face : Face} (h : es.lookup name = some c)
    (hface : (l, face) ∈ c.faces) : (name :: l, face) ∈ entryFaces es := by
  induction es with
  | nil => cases h
  | cons e es ih =>
      obtain ⟨key, node⟩ := e
      rw [entryFaces, List.mem_append]
      rw [List.lookup_cons] at h
      split at h
      · rename_i heq
        obtain rfl : name = key := by simpa using heq
        obtain rfl := Option.some.inj h
        exact Or.inl (List.mem_map.mpr ⟨(l, face), hface, rfl⟩)
      · exact Or.inr (ih h)

theorem mem_faces {face : Face} (h : n.look l = some face) : (l, face) ∈ n.faces := by
  induction l generalizing n with
  | nil =>
      obtain rfl := Option.some.inj h
      cases n <;> simp [faces, Node.face]
  | cons name l ih =>
      rw [look, at?] at h
      cases n with
      | directory mode es =>
          rw [entries] at h
          cases hc : es.lookup name with
          | none => simp [hc] at h
          | some c =>
              rw [hc, Option.bind_some] at h
              exact List.mem_cons_of_mem _ (mem_entryFaces hc (ih h))
      | file | link | pipe => simp [entries] at h

/-- What holds of all faces at and below a location holds of what is seen
there. -/
theorem forall_look_of_faces {P : Location → Face → Prop}
    (h : ∀ e ∈ (n.at? l).elim [] faces, P e.1 e.2) :
    ∀ names face, n.look (l ++ names) = some face → P names face := by
  intro names face hlook
  cases hat : n.at? l with
  | none =>
      rw [look, at?_append, hat] at hlook
      cases hlook
  | some node =>
      rw [look_append hat] at hlook
      rw [hat] at h
      exact h (names, face) (mem_faces hlook)

/-! ## Replacing a node -/

/-- The tree with the node at a location replaced, or put there. -/
def put (n : Node) (l : Location) (x : Node) : Node :=
  (Node.alter (fun _ => some x) l (some n)).getD n

/-- Something can stand at a location: what is above it is a directory. -/
def HasPlace (n : Node) (l : Location) : Prop :=
  ∀ above name, l = above ++ [name] → ∃ mode, n.look above = some (.directory mode)

theorem alter_eq_put (n : Node) (l : Location) (x : Node) :
    Node.alter (fun _ => some x) l (some n) = some (n.put l x) := by
  unfold put
  cases l with
  | nil => rfl
  | cons name l => cases n <;> rfl

theorem put_cons (mode : Mode) (es : Entries) (name : Bytes) (l : Location) (x : Node) :
    (Node.directory mode es).put (name :: l) x =
      .directory mode (Entries.alter (Node.alter (fun _ => some x) l) name es) := rfl

/-- What a place in a directory comes down to in its entry. -/
theorem HasPlace.entry (h : HasPlace n (name :: l)) :
    ∃ mode es, n = .directory mode es ∧
      ((es.lookup name = none ∧ l = []) ∨ ∃ c, es.lookup name = some c ∧ c.HasPlace l) := by
  -- There are names below the node, so it is a directory.
  have hdir : ∃ mode, n.look [] = some (.directory mode) := by
    obtain ⟨above, last, heq⟩ := List.eq_nil_or_concat' (name :: l) |>.resolve_left (by simp)
    obtain ⟨mode, habove⟩ := h above last heq
    by_cases hnil : above = []
    · exact ⟨mode, hnil ▸ habove⟩
    · exact exists_directory_of_lt (by rw [habove]; rfl) List.nil_prefix (Ne.symm hnil)
  obtain ⟨mode, hmode⟩ := hdir
  obtain ⟨es, hat⟩ := look_eq_directory_iff.mp hmode
  obtain rfl : n = .directory mode es := Option.some.inj hat
  refine ⟨mode, es, rfl, ?_⟩
  -- If more names follow, the entry is there and is a directory again.
  have hbelow : ∀ above last, l = above ++ [last] →
      ∃ c, es.lookup name = some c ∧ ∃ mode, c.look above = some (.directory mode) := by
    intro above last heq
    obtain ⟨mode', habove⟩ := h (name :: above) last (by rw [heq]; rfl)
    rw [look, at?] at habove
    cases hlook : es.lookup name with
    | none => simp [entries, hlook] at habove
    | some c => exact ⟨c, rfl, mode', by simpa [entries, hlook, look] using habove⟩
  cases hlook : es.lookup name with
  | some c =>
      refine Or.inr ⟨c, rfl, fun above last heq => ?_⟩
      obtain ⟨c', hc', hmode'⟩ := hbelow above last heq
      rw [hlook] at hc'
      exact Option.some.inj hc' ▸ hmode'
  | none =>
      refine Or.inl ⟨rfl, ?_⟩
      rcases List.eq_nil_or_concat' l with hnil | ⟨above, last, heq⟩
      · exact hnil
      · obtain ⟨c, hc, -⟩ := hbelow above last heq
        rw [hlook] at hc
        cases hc

/-- What an entry becomes when a node below it, or the entry itself, is
replaced. -/
theorem lookup_alter_put (hplace : HasPlace (.directory mode es) (name :: l)) (x : Node) :
    ∃ c, (Entries.alter (Node.alter (fun _ => some x) l) name es).lookup name = some c ∧
      ((es.lookup name = none ∧ l = [] ∧ c = x) ∨
        ∃ c', es.lookup name = some c' ∧ c'.HasPlace l ∧ c = c'.put l x) := by
  obtain ⟨mode', es', heq, hentry⟩ := hplace.entry
  cases heq
  rcases hentry with ⟨hnone, rfl⟩ | ⟨c, hc, hplace⟩
  · refine ⟨x, ?_, Or.inl ⟨hnone, rfl, rfl⟩⟩
    rw [Entries.lookup_alter_self _ _ _ (by rfl)]
    rfl
  · refine ⟨c.put l x, ?_, Or.inr ⟨c, hc, hplace, rfl⟩⟩
    rw [Entries.lookup_alter_self _ _ _ (by rw [hc, alter_eq_put]; rfl), hc, alter_eq_put]

theorem at?_put_append (hplace : n.HasPlace l) (x : Node) (m : Location) :
    (n.put l x).at? (l ++ m) = x.at? m := by
  induction l generalizing n with
  | nil => rfl
  | cons name l ih =>
      obtain ⟨mode, es, rfl, -⟩ := hplace.entry
      obtain ⟨c, hlook, hc⟩ := lookup_alter_put hplace x
      rw [put_cons, List.cons_append, at?, entries, hlook, Option.bind_some]
      rcases hc with ⟨-, rfl, rfl⟩ | ⟨c', -, hplace', rfl⟩
      · rfl
      · exact ih hplace'

theorem look_put_of_not_prefix (hplace : n.HasPlace l) (x : Node) (h : ¬ l <+: m) :
    (n.put l x).look m = n.look m := by
  induction l generalizing n m with
  | nil => exact absurd List.nil_prefix h
  | cons name l ih =>
      obtain ⟨mode, es, rfl, -⟩ := hplace.entry
      rw [put_cons]
      cases m with
      | nil => rfl
      | cons key m =>
          rw [look, look, at?, at?, entries, entries]
          -- Beside the first name nothing changes; behind it the two locations still part.
          by_cases hkey : key = name
          · subst hkey
            have hlm : ¬ l <+: m := fun hlm => h (List.cons_prefix_cons.mpr ⟨rfl, hlm⟩)
            obtain ⟨c, hlook, hc⟩ := lookup_alter_put hplace x
            rw [hlook]
            rcases hc with ⟨-, rfl, -⟩ | ⟨c', hc', hplace', rfl⟩
            · exact absurd List.nil_prefix hlm
            · rw [hc']
              exact ih hplace' hlm
          · rw [Entries.lookup_alter_of_ne _ hkey]

/-- A replaced node shows at its location and below. -/
theorem look_put (hplace : n.HasPlace l) (x : Node) (m : Location) :
    (n.put l x).look m = if l <+: m then x.look (m.drop l.length) else n.look m := by
  split
  · rename_i h
    obtain ⟨rest, rfl⟩ := h
    rw [List.drop_left, look, at?_put_append hplace, look]
  · rename_i h
    exact look_put_of_not_prefix hplace x h

theorem hasPlace_of_at? (h : (n.at? l).isSome) : n.HasPlace l := by
  rintro above name rfl
  have hlook : (n.look (above ++ [name])).isSome := by
    rw [look, Option.isSome_map]
    exact h
  exact exists_directory_of_look_concat hlook

theorem hasPlace_concat (h : n.look l = some (.directory mode)) (name : Bytes) :
    n.HasPlace (l ++ [name]) := by
  intro above last heq
  obtain ⟨rfl, -⟩ := List.append_inj' heq rfl
  exact ⟨mode, h⟩

theorem look_withMode_cons (node : Node) (mode : Mode) (name : Bytes) (l : Location) :
    (node.withMode mode).look (name :: l) = node.look (name :: l) := by
  cases node <;> rfl

/-- New permission bits show at one location only. -/
theorem look_put_withMode (h : n.at? l = some node) (mode : Mode) (m : Location) :
    (n.put l (node.withMode mode)).look m =
      if m = l then some (node.withMode mode).face else n.look m := by
  rw [look_put (hasPlace_of_at? (by rw [h]; rfl))]
  by_cases hlm : l <+: m
  · rw [if_pos hlm]
    obtain ⟨rest, rfl⟩ := hlm
    rw [List.drop_left]
    cases rest with
    | nil =>
        rw [if_pos (List.append_nil l)]
        rfl
    -- Below the node permission bits do not show.
    | cons name rest =>
        have hne : l ++ name :: rest ≠ l := by
          intro heq
          have hlength := congrArg List.length heq
          simp at hlength
        rw [if_neg hne, look_withMode_cons, look_append h]
  · have hne : m ≠ l := fun heq => hlm (heq ▸ List.prefix_refl l)
    rw [if_neg hlm, if_neg hne]

/-! ## Well-formed trees -/

/-- What names an entry of a directory. -/
structure IsEntryName (name : Bytes) : Prop extends Path.IsName name where
  nul_notMem : 0 ∉ name
  length_le : name.length ≤ FileSystem.nameLimit

instance (name : Bytes) : Decidable (IsEntryName name) :=
  decidable_of_iff (Path.IsName name ∧ 0 ∉ name ∧ name.length ≤ FileSystem.nameLimit)
    ⟨fun ⟨h, h', h''⟩ => ⟨h, h', h''⟩, fun h => ⟨h.toIsName, h.nul_notMem, h.length_le⟩⟩

/-- A tree in which look-ups by name and listings agree, and whose names and
links a path can follow. -/
inductive WellFormed : Node → Prop
  | file (mode : Mode) (content : Bytes) : WellFormed (.file mode content)
  | link {target : Path} (ne_nil : target.bytes ≠ []) (nul_notMem : 0 ∉ target.bytes) :
      WellFormed (.link target)
  | pipe (mode : Mode) : WellFormed (.pipe mode)
  | directory (mode : Mode) {es : Entries} (nodup : (es.map Prod.fst).Nodup)
      (names : ∀ e ∈ es, IsEntryName e.1) (nodes : ∀ e ∈ es, WellFormed e.2) :
      WellFormed (.directory mode es)

mutual

/-- `WellFormed`, computed. -/
def isWellFormed : Node → Bool
  | .file .. | .pipe _ => true
  | .link target => !target.isEmpty && !target.bytes.contains 0
  | .directory _ es => decide (es.map Prod.fst).Nodup && areWellFormed es

def areWellFormed : List (Bytes × Node) → Bool
  | [] => true
  | (name, node) :: rest => decide (IsEntryName name) && isWellFormed node && areWellFormed rest

end

theorem areWellFormed_iff :
    areWellFormed es ↔ ∀ e ∈ es, IsEntryName e.1 ∧ e.2.isWellFormed := by
  induction es with
  | nil => simp [areWellFormed]
  | cons e es ih =>
      obtain ⟨name, node⟩ := e
      simp [areWellFormed, ih, and_assoc]

theorem WellFormed.isWellFormed {n : Node} (h : n.WellFormed) : n.isWellFormed := by
  induction h with
  | file | pipe => rfl
  | link ne_nil nul_notMem => simp [Node.isWellFormed, Path.isEmpty, ne_nil, nul_notMem]
  | directory mode nodup names nodes ih =>
      rw [Node.isWellFormed, Bool.and_eq_true]
      exact ⟨decide_eq_true nodup, areWellFormed_iff.mpr fun e he => ⟨names e he, ih e he⟩⟩

theorem wellFormed_of_isWellFormed : ∀ n : Node, n.isWellFormed → n.WellFormed
  | .file mode content, _ => .file mode content
  | .pipe mode, _ => .pipe mode
  | .link target, h => by
      simp only [isWellFormed, Path.isEmpty, Bool.and_eq_true, Bool.not_eq_true',
        List.isEmpty_eq_false_iff] at h
      exact .link h.1 (by simpa using h.2)
  | .directory mode es, h => by
      rw [isWellFormed, Bool.and_eq_true] at h
      obtain ⟨hnodup, hentries⟩ := h
      rw [areWellFormed_iff] at hentries
      exact .directory mode (of_decide_eq_true hnodup) (fun e he => (hentries e he).1)
        fun e he => wellFormed_of_isWellFormed e.2 (hentries e he).2
termination_by n => sizeOf n
decreasing_by
  have := List.sizeOf_lt_of_mem he
  obtain ⟨name, node⟩ := e
  simp at this ⊢
  omega

instance (n : Node) : Decidable n.WellFormed :=
  decidable_of_iff (n.isWellFormed = true) ⟨wellFormed_of_isWellFormed n, WellFormed.isWellFormed⟩
theorem mem_of_lookup {c : Node} (h : es.lookup name = some c) : (name, c) ∈ es := by
  obtain ⟨front, back, rfl, -⟩ := List.lookup_eq_some_iff.mp h
  simp

theorem lookup_eq_some_iff_mem (hn : WellFormed (.directory mode es)) {c : Node} :
    es.lookup name = some c ↔ (name, c) ∈ es := by
  refine ⟨mem_of_lookup, fun hmem => ?_⟩
  cases hn with
  | directory _ nodup names nodes =>
      obtain ⟨front, back, rfl⟩ := List.append_of_mem hmem
      refine List.lookup_eq_some_iff.mpr ⟨front, back, rfl, fun e he => ?_⟩
      rw [List.map_append, List.nodup_append] at nodup
      have hne := nodup.2.2 e.1 (List.mem_map_of_mem he) name (by simp)
      simpa using hne.symm

theorem WellFormed.at? (hn : n.WellFormed) (h : n.at? l = some x) : x.WellFormed := by
  induction l generalizing n with
  | nil => exact Option.some.inj h ▸ hn
  | cons name l ih =>
      cases hn with
      | directory mode nodup names nodes =>
          rw [Node.at?, entries] at h
          obtain ⟨c, hc, hat⟩ := Option.bind_eq_some_iff.mp h
          exact ih (nodes _ (mem_of_lookup hc)) hat
      | file | link | pipe => simp [Node.at?, entries] at h

theorem look_of_mem (hn : n.WellFormed) (h : n.at? l = some (.directory mode es))
    {e : Bytes × Node} (he : e ∈ es) (m : Location) :
    n.look (l ++ [e.1] ++ m) = e.2.look m := by
  apply look_append
  rw [← lookup_of_at? h]
  exact (lookup_eq_some_iff_mem (hn.at? h)).mpr he

theorem WellFormed.isEntryName (hn : n.WellFormed) (h : (n.look (l ++ [name])).isSome) :
    IsEntryName name := by
  obtain ⟨mode, hmode⟩ := exists_directory_of_look_concat h
  obtain ⟨es, hat⟩ := look_eq_directory_iff.mp hmode
  rw [look, Option.isSome_map, ← lookup_of_at? hat] at h
  obtain ⟨c, hc⟩ := Option.isSome_iff_exists.mp h
  cases hn.at? hat with
  | directory _ nodup names nodes => exact names _ (mem_of_lookup hc)

theorem mem_alter {f : Option Node → Option Node} {e : Bytes × Node}
    (h : e ∈ Entries.alter f name es) : e ∈ es ∨ (e.1 = name ∧ some e.2 = f (es.lookup name)) := by
  induction es with
  | nil =>
      rw [Entries.alter, Option.mem_toList, Option.map_eq_some_iff] at h
      obtain ⟨c, hc, rfl⟩ := h
      exact Or.inr ⟨rfl, hc.symm⟩
  | cons entry es ih =>
      obtain ⟨key, node⟩ := entry
      by_cases hkey : key = name
      · subst hkey
        rw [Entries.alter, if_pos rfl, List.mem_append, Option.mem_toList,
          Option.map_eq_some_iff] at h
        rcases h with ⟨c, hc, rfl⟩ | h
        · exact Or.inr ⟨rfl, by simpa using hc.symm⟩
        · exact Or.inl (List.mem_cons_of_mem _ h)
      · rw [Entries.alter, if_neg hkey] at h
        have hb : (name == key) = false := by simpa using fun heq => hkey heq.symm
        rw [List.lookup_cons, hb]
        rcases List.mem_cons.mp h with rfl | h
        · exact Or.inl List.mem_cons_self
        · exact (ih h).imp_left (List.mem_cons_of_mem _)

theorem keys_alter {f : Option Node → Option Node} (h : (f (es.lookup name)).isSome) :
    (Entries.alter f name es).map Prod.fst =
      if (es.lookup name).isSome then es.map Prod.fst else es.map Prod.fst ++ [name] := by
  induction es with
  | nil =>
      obtain ⟨c, hc⟩ := Option.isSome_iff_exists.mp h
      have hc : f none = some c := hc
      simp [Entries.alter, hc]
  | cons entry es ih =>
      obtain ⟨key, node⟩ := entry
      -- The entry is replaced where its name stands first.
      by_cases hkey : key = name
      · subst hkey
        rw [List.lookup_cons_self] at h ⊢
        obtain ⟨c, hc⟩ := Option.isSome_iff_exists.mp h
        simp [Entries.alter, hc]
      · have hb : (name == key) = false := by simpa using fun heq => hkey heq.symm
        simp only [List.lookup_cons, hb] at h ⊢
        rw [Entries.alter, if_neg hkey, List.map_cons, ih h, List.map_cons]
        split <;> rfl

/-- A directory stays well-formed when an entry becomes a well-formed node. -/
theorem WellFormed.alter (hn : WellFormed (.directory mode es)) {f : Option Node → Option Node}
    {c : Node} (hf : f (es.lookup name) = some c) (hc : c.WellFormed)
    (hname : (es.lookup name).isSome ∨ IsEntryName name) :
    WellFormed (.directory mode (Entries.alter f name es)) := by
  cases hn with
  | directory _ nodup names nodes =>
      have hvalid : IsEntryName name := by
        rcases hname with hsome | hname
        · obtain ⟨c, hc⟩ := Option.isSome_iff_exists.mp hsome
          exact names _ (mem_of_lookup hc)
        · exact hname
      refine .directory mode ?_ ?_ ?_
      · -- A new name is added to the others only if it is not among them.
        rw [keys_alter (by rw [hf]; rfl)]
        split
        · exact nodup
        · rename_i hnone
          rw [Option.not_isSome_iff_eq_none, List.lookup_eq_none_iff] at hnone
          refine List.nodup_append.mpr ⟨nodup, List.nodup_singleton name, ?_⟩
          intro key hkey other hother heq
          obtain ⟨e, he, rfl⟩ := List.mem_map.mp hkey
          rw [List.mem_singleton.mp hother] at heq
          simpa [heq] using hnone e he
      · intro e he
        rcases mem_alter he with he | ⟨heq, -⟩
        · exact names e he
        · exact heq ▸ hvalid
      · intro e he
        rcases mem_alter he with he | ⟨-, heq⟩
        · exact nodes e he
        · rw [hf] at heq
          exact Option.some.inj heq ▸ hc

/-- Replacing a node by a well-formed one, or adding one under a valid name,
keeps a tree well-formed. -/
theorem WellFormed.put (hn : n.WellFormed) (hx : x.WellFormed) (hplace : n.HasPlace l)
    (hname : ∀ above name, l = above ++ [name] → IsEntryName name) : (n.put l x).WellFormed := by
  induction l generalizing n with
  | nil => exact hx
  | cons name l ih =>
      obtain ⟨mode, es, rfl, hentry⟩ := hplace.entry
      rw [put_cons]
      rcases hentry with ⟨hnone, rfl⟩ | ⟨c, hc, hplace'⟩
      · exact hn.alter rfl hx (Or.inr (hname [] name rfl))
      · have hcWell : c.WellFormed := by
          cases hn with
          | directory _ nodup names nodes => exact nodes _ (mem_of_lookup hc)
        have hput : (c.put l x).WellFormed :=
          ih hcWell hplace' fun above last heq => hname (name :: above) last (by rw [heq]; rfl)
        exact hn.alter (by rw [hc, alter_eq_put]) hput (Or.inl (by rw [hc]; rfl))

theorem WellFormed.withMode (hn : n.WellFormed) (mode : Mode) : (n.withMode mode).WellFormed := by
  cases hn with
  | file _ content => exact .file mode content
  | link ne_nil nul_notMem => exact .link ne_nil nul_notMem
  | pipe _ => exact .pipe mode
  | directory _ nodup names nodes => exact .directory mode nodup names nodes

/-! ## Each face once -/

theorem entryFaces_eq_flatMap (es : Entries) :
    entryFaces es = es.flatMap fun e => e.2.faces.map fun f => (e.1 :: f.1, f.2) := by
  induction es with
  | nil => rfl
  | cons e es ih => rw [entryFaces, ih, List.flatMap_cons]

/-- What is listed is what is seen. -/
theorem mem_faces_iff (hn : n.WellFormed) {face : Face} :
    (l, face) ∈ n.faces ↔ n.look l = some face := by
  refine ⟨fun h => ?_, mem_faces⟩
  -- The other direction needs no names of their own: what is seen is listed anyway.
  induction hn generalizing l with
  | file | link | pipe =>
      simp only [faces, List.mem_singleton, Prod.mk.injEq] at h
      obtain ⟨rfl, rfl⟩ := h
      rfl
  | @directory mode es nodup names nodes ih =>
      rw [faces, List.mem_cons] at h
      rcases h with h | h
      · obtain ⟨rfl, rfl⟩ := Prod.mk.inj h
        rfl
      · rw [entryFaces_eq_flatMap, List.mem_flatMap] at h
        obtain ⟨e, he, hface⟩ := h
        obtain ⟨f, hf, heq⟩ := List.mem_map.mp hface
        obtain ⟨rfl, rfl⟩ := Prod.mk.inj heq
        have hlookup := (lookup_eq_some_iff_mem (.directory mode nodup names nodes)).mpr he
        rw [look, at?, entries, hlookup, Option.bind_some]
        exact ih e he hf

theorem nodup_faces (hn : n.WellFormed) : n.faces.Nodup := by
  induction hn with
  | file | link | pipe => exact List.nodup_singleton _
  | @directory mode es nodup names nodes ih =>
      rw [faces, List.nodup_cons, entryFaces_eq_flatMap, List.nodup_flatMap]
      refine ⟨fun hmem => ?_, fun e he => ?_, ?_⟩
      · obtain ⟨e, -, hface⟩ := List.mem_flatMap.mp hmem
        obtain ⟨f, -, heq⟩ := List.mem_map.mp hface
        exact List.cons_ne_nil _ _ (Prod.mk.inj heq).1
      · refine (ih e he).map fun f g heq => ?_
        obtain ⟨hnames, hface⟩ := Prod.mk.inj heq
        exact Prod.ext (List.cons.inj hnames).2 hface
      · -- Faces below different entries have different first names.
        refine (List.pairwise_map.mp nodup).imp fun hne f hf hg => hne ?_
        obtain ⟨f', -, rfl⟩ := List.mem_map.mp hf
        obtain ⟨g', -, heq⟩ := List.mem_map.mp hg
        exact (List.cons.inj (Prod.mk.inj heq).1).1.symm

/-- Trees that look the same list the same faces, if not in the same order. -/
theorem faces_perm (hn : n.WellFormed) (hx : x.WellFormed) (h : ∀ l, n.look l = x.look l) :
    n.faces.Perm x.faces := by
  refine (List.perm_ext_iff_of_nodup (nodup_faces hn) (nodup_faces hx)).mpr fun e => ?_
  rw [mem_faces_iff hn, mem_faces_iff hx, h]

end Node

end Confinement
