import Mua.Json

/-! # What json_parse accepts

json_parse again, on a String that may have no data and with the trees it owns.
cJSON allocates a tree when it parses a value and `json_free` takes it back, so a
rejected document is one after which no other tree is alive than before.
-/

namespace Mua

/-- The cJSON trees allocated and not freed yet, under ids that are never used twice. -/
structure Trees where
  next : Nat
  live : List Nat
  used : ∀ id ∈ live, id < next

def Trees.alloc (trees : Trees) : Nat × Trees where
  fst := trees.next
  snd :=
    { next := trees.next + 1
      live := trees.next :: trees.live
      used := by
        intro id hId
        rcases List.mem_cons.mp hId with rfl | hId
        · exact Nat.lt_succ_self _
        · exact Nat.lt_succ_of_lt (trees.used id hId) }

def Trees.free (trees : Trees) (id : Nat) : Trees where
  next := trees.next
  live := trees.live.erase id
  used other hOther := trees.used other (List.mem_of_mem_erase hOther)

@[simp] theorem Trees.alloc_live (trees : Trees) :
    trees.alloc.2.live = trees.alloc.1 :: trees.live := rfl

@[simp] theorem Trees.free_alloc (trees : Trees) :
    (trees.alloc.2.free trees.alloc.1).live = trees.live := by
  simp [Trees.free]

def jsonFree (trees : Trees) (id : Nat) : Trees := trees.free id

/-- `json_parse`: the tree it returns, or the error, and the trees alive after it. -/
def jsonParseOwned (lib : JsonLib) (doc : Option Bytes) (maxSize : Nat) (trees : Trees) :
    Except Error (Nat × CJson) × Trees :=
  match doc with
  | none => (.error ⟨.validation, ascii "json: empty document"⟩, trees)
  | some doc =>
    if doc.length > maxSize then
      (.error ⟨.validation, ascii "json: document of " ++ decimal doc.length ++
        ascii " bytes exceeds cap of " ++ decimal maxSize⟩, trees)
    else
      match lib.parse doc with
      | .error offset =>
        (.error ⟨.validation, ascii "json: parse failed near byte " ++ decimal offset⟩, trees)
      | .ok (node, parseEnd) =>
        let (id, trees) := trees.alloc
        match (doc.drop parseEnd).dropWhile isJsonSpace with
        | [] => (.ok (id, node), trees)
        | b :: rest =>
          if b = 0 then (.ok (id, node), trees)
          else
            (.error ⟨.validation, ascii "json: trailing bytes after document at offset " ++
              decimal (doc.length - (rest.length + 1))⟩, jsonFree trees id)

theorem jsonParseOwned_eq (lib : JsonLib) (doc : Bytes) (maxSize : Nat) (trees : Trees) :
    (jsonParseOwned lib (some doc) maxSize trees).1.map (·.2) = jsonParse lib doc maxSize := by
  unfold jsonParseOwned jsonParse
  dsimp only
  split
  · rfl
  cases lib.parse doc with
  | error offset => rfl
  | ok value =>
    dsimp only
    cases (doc.drop value.2).dropWhile isJsonSpace with
    | nil => rfl
    | cons b rest =>
      dsimp only
      split <;> rfl

variable {lib : JsonLib} {doc : Option Bytes} {maxSize : Nat} {trees : Trees}

/-- cJSON parses a value at the front of a slice within the cap, and `tail` is what follows it
and the whitespace after it. -/
def Leaves (lib : JsonLib) (doc : Option Bytes) (maxSize : Nat) (tail : Bytes) : Prop :=
  ∃ bytes node parseEnd spaces, doc = some bytes ∧ bytes.length ≤ maxSize ∧
    lib.parse bytes = .ok (node, parseEnd) ∧ bytes.drop parseEnd = spaces ++ tail ∧
      ∀ b ∈ spaces, isJsonSpace b = true

/-- One value and whitespace, up to the end of the slice or to one NUL that ends it. -/
def StrictDocument (lib : JsonLib) (doc : Option Bytes) (maxSize : Nat) : Prop :=
  Leaves lib doc maxSize [] ∨ Leaves lib doc maxSize [0]

/-- A NUL after the value that is not the last byte of the slice. -/
def EarlyNul (lib : JsonLib) (doc : Option Bytes) (maxSize : Nat) : Prop :=
  ∃ b rest, Leaves lib doc maxSize (0 :: b :: rest)

theorem dropWhile_tail {after spaces tail : Bytes} (hAfter : after = spaces ++ tail)
    (hSpaces : ∀ b ∈ spaces, isJsonSpace b = true)
    (hTail : ∀ b ∈ tail.head?, isJsonSpace b = false) : after.dropWhile isJsonSpace = tail := by
  rw [hAfter, List.dropWhile_append_of_pos hSpaces]
  cases tail with
  | nil => rfl
  | cons b rest =>
    rw [List.dropWhile_cons_of_neg]
    simp [hTail b rfl]

/-- How a call ends: rejected before a value is parsed, or after one with what it leaves. -/
theorem jsonParseOwned_cases (lib : JsonLib) (doc : Option Bytes) (maxSize : Nat) (trees : Trees) :
    (∃ err, jsonParseOwned lib doc maxSize trees = (.error err, trees) ∧ err.type = .validation ∧
        ∀ tail, ¬Leaves lib doc maxSize tail) ∨
      ∃ node tail, (∀ b ∈ tail.head?, isJsonSpace b = false) ∧ Leaves lib doc maxSize tail ∧
        (∀ tail', (∀ b ∈ tail'.head?, isJsonSpace b = false) → Leaves lib doc maxSize tail' →
          tail' = tail) ∧
        if tail.head? = none ∨ tail.head? = some 0 then
          jsonParseOwned lib doc maxSize trees = (.ok (trees.alloc.1, node), trees.alloc.2)
        else ∃ err, err.type = .validation ∧ jsonParseOwned lib doc maxSize trees =
          (.error err, jsonFree trees.alloc.2 trees.alloc.1) := by
  cases doc with
  | none =>
    left
    refine ⟨_, rfl, rfl, ?_⟩
    rintro tail ⟨bytes, -, -, -, hDoc, -⟩
    cases hDoc
  | some doc =>
    unfold jsonParseOwned
    dsimp only
    split
    · rename_i hSize
      refine .inl ⟨_, rfl, rfl, ?_⟩
      rintro tail ⟨bytes, -, -, -, hDoc, hLe, -⟩
      cases hDoc
      omega
    rename_i hSize
    split
    · rename_i offset hParse
      refine .inl ⟨_, rfl, rfl, ?_⟩
      rintro tail ⟨bytes, node, parseEnd, -, hDoc, -, hOk, -⟩
      cases hDoc
      cases hParse.symm.trans hOk
    rename_i node parseEnd hParse
    have hSpan := (List.takeWhile_append_dropWhile (p := isJsonSpace) (l := doc.drop parseEnd)).symm
    have hSpaces : ∀ b ∈ (doc.drop parseEnd).takeWhile isJsonSpace, isJsonSpace b = true :=
      fun b hb => List.mem_takeWhile_imp hb
    have hUnique : ∀ tail', (∀ b ∈ tail'.head?, isJsonSpace b = false) →
        Leaves lib (some doc) maxSize tail' → tail' = (doc.drop parseEnd).dropWhile isJsonSpace := by
      rintro tail' hHead ⟨bytes, node', parseEnd', spaces, hDoc, -, hOk, hAfter, hAll⟩
      cases hDoc
      cases hParse.symm.trans hOk
      exact (dropWhile_tail hAfter hAll hHead).symm
    have hLeaves : Leaves lib (some doc) maxSize ((doc.drop parseEnd).dropWhile isJsonSpace) :=
      ⟨doc, node, parseEnd, _, rfl, by omega, hParse, hSpan, hSpaces⟩
    have hHead : ∀ b ∈ ((doc.drop parseEnd).dropWhile isJsonSpace).head?, isJsonSpace b = false := by
      intro b hb
      have := List.head?_dropWhile_not isJsonSpace (doc.drop parseEnd)
      rw [Option.mem_def.mp hb] at this
      simpa using this
    right
    refine ⟨node, _, hHead, hLeaves, hUnique, ?_⟩
    cases (doc.drop parseEnd).dropWhile isJsonSpace with
    | nil => rfl
    | cons b rest =>
      by_cases hb : b = 0
      · simp [hb]
      · simp [hb]

/-- The contract of `json_parse` on a slice. -/
structure ParsesStrictly (lib : JsonLib) (doc : Option Bytes) (maxSize : Nat) (trees : Trees) :
    Prop where
  accepts : (∃ tree, (jsonParseOwned lib doc maxSize trees).1 = .ok tree) ↔
    StrictDocument lib doc maxSize
  owns : ∀ id node, (jsonParseOwned lib doc maxSize trees).1 = .ok (id, node) →
    (jsonParseOwned lib doc maxSize trees).2.live = id :: trees.live
  rejects : ∀ err, (jsonParseOwned lib doc maxSize trees).1 = .error err →
    err.type = .validation ∧ (jsonParseOwned lib doc maxSize trees).2.live = trees.live

theorem isJsonSpace_zero : isJsonSpace 0 = false := rfl

theorem ParsesStrictly.of_rejected {err : Error}
    (h : jsonParseOwned lib doc maxSize trees = (.error err, trees)) (hType : err.type = .validation)
    (hLeaves : ∀ tail, ¬Leaves lib doc maxSize tail) : ParsesStrictly lib doc maxSize trees := by
  refine ⟨?_, ?_, ?_⟩
  · rw [h]
    refine iff_of_false nofun ?_
    rintro (hEnd | hNul)
    · exact hLeaves _ hEnd
    · exact hLeaves _ hNul
  · rw [h]
    nofun
  · rw [h]
    rintro err' ⟨⟩
    exact ⟨hType, rfl⟩

/-- A slice is parsed strictly, whatever trees are alive, if and only if no value at its front is
followed by a NUL with bytes behind it. -/
theorem jsonParse_strict_iff (lib : JsonLib) (doc : Option Bytes) (maxSize : Nat) (trees : Trees) :
    ParsesStrictly lib doc maxSize trees ↔ ¬EarlyNul lib doc maxSize := by
  have hNul : ∀ b rest, ∀ c ∈ (0 :: b :: rest : Bytes).head?, isJsonSpace c = false := by
    rintro b rest c ⟨⟩
    exact isJsonSpace_zero
  rcases jsonParseOwned_cases lib doc maxSize trees with
    ⟨err, hErr, hType, hNone⟩ | ⟨node, tail, hHead, hLeaves, hUnique, hEnd⟩
  · refine iff_of_true (.of_rejected hErr hType hNone) ?_
    rintro ⟨b, rest, hEarly⟩
    exact hNone _ hEarly
  have hStrict : StrictDocument lib doc maxSize ↔ tail = [] ∨ tail = [0] := by
    constructor
    · rintro (hNil | hOne)
      · exact .inl (hUnique [] nofun hNil).symm
      · refine .inr (hUnique [0] ?_ hOne).symm
        rintro c ⟨⟩
        exact isJsonSpace_zero
    · rintro (rfl | rfl)
      · exact .inl hLeaves
      · exact .inr hLeaves
  have hEarly : EarlyNul lib doc maxSize ↔ ∃ b rest, tail = 0 :: b :: rest := by
    constructor
    · rintro ⟨b, rest, hLeft⟩
      exact ⟨b, rest, (hUnique _ (hNul b rest) hLeft).symm⟩
    · rintro ⟨b, rest, rfl⟩
      exact ⟨b, rest, hLeaves⟩
  rw [hEarly]
  split at hEnd
  · rename_i hAccept
    -- accepted: the tail is empty, or a NUL with whatever stands behind it
    constructor
    · rintro hParses ⟨b, rest, rfl⟩
      have hTail := hStrict.mp (hParses.accepts.mp ⟨_, congrArg Prod.fst hEnd⟩)
      rcases hTail with hTail | hTail <;> cases hTail
    · intro hNot
      refine ⟨?_, ?_, ?_⟩
      · refine iff_of_true ⟨_, congrArg Prod.fst hEnd⟩ (hStrict.mpr ?_)
        match tail, hAccept, hNot with
        | [], _, _ => exact .inl rfl
        | [c], hAccept, _ =>
          rcases hAccept with hNil | hZero
          · cases hNil
          · cases hZero
            exact .inr rfl
        | c :: b :: rest, hAccept, hNot =>
          rcases hAccept with hNil | hZero
          · cases hNil
          · cases hZero
            exact absurd ⟨b, rest, rfl⟩ hNot
      · rw [hEnd]
        rintro id node' ⟨⟩
        rfl
      · rw [hEnd]
        nofun
  · rename_i hReject
    obtain ⟨err, hType, hErr⟩ := hEnd
    refine iff_of_true ⟨?_, ?_, ?_⟩ ?_
    · rw [hErr, hStrict]
      refine iff_of_false nofun ?_
      rintro (rfl | rfl)
      · exact hReject (.inl rfl)
      · exact hReject (.inr rfl)
    · rw [hErr]
      nofun
    · rw [hErr]
      rintro err' ⟨⟩
      exact ⟨hType, Trees.free_alloc trees⟩
    · rintro ⟨b, rest, rfl⟩
      exact hReject (.inr rfl)

/-! A document of two bytes, a NUL and another byte. -/

/-- A parser of `{}` at the front of a text. -/
def braceLib : JsonLib where
  parse doc :=
    if ascii "\x7b\x7d" <+: doc then .ok (jsonNewObj, 2) else .error 0
  print _ := []
  castOutside _ := 0

theorem jsonParse_nul_accepted :
    ¬StrictDocument braceLib (some (ascii "\x7b\x7d\x00x")) 1024 ∧
      (jsonParse braceLib (ascii "\x7b\x7d\x00x") 1024).isOk = true := by
  refine ⟨?_, by decide⟩
  have hParse : braceLib.parse (ascii "\x7b\x7d\x00x") = .ok (jsonNewObj, 2) := rfl
  rintro (⟨bytes, node, parseEnd, spaces, ⟨⟩, -, hOk, hAfter, hSpaces⟩ |
    ⟨bytes, node, parseEnd, spaces, ⟨⟩, -, hOk, hAfter, hSpaces⟩)
  · cases hParse.symm.trans hOk
    have := dropWhile_tail hAfter hSpaces nofun
    revert this
    decide
  · cases hParse.symm.trans hOk
    have hZero : ∀ b ∈ ([0] : Bytes).head?, isJsonSpace b = false := by
      rintro b ⟨⟩
      exact isJsonSpace_zero
    have := dropWhile_tail hAfter hSpaces hZero
    revert this
    decide

end Mua
