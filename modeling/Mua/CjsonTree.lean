import Mua.CjsonText

/-! # The trees of cJSON

A tree that is printed is parsed back as C reads it. An accepted tree nests no deeper than the
limit, and what was accepted is accepted the same before any further text, so no torn text of a
tree is accepted.
-/

namespace Mua.Cjson

open Separated

variable {num : NumLib} {s rest : Bytes} {b : Byte} {room : Nat} {node : CJson}

theorem skipWhitespace_cons (h : 32 < b) (s : Bytes) : skipWhitespace (b :: s) = b :: s := by
  rw [skipWhitespace, List.dropWhile_cons_of_neg (by simpa using h)]

theorem skipWhitespace_length (s : Bytes) : (skipWhitespace s).length ≤ s.length := by
  have hDrop := (List.dropWhile_suffix (l := s) fun b : Byte => b ≤ 32).length_le
  rw [skipWhitespace]
  split
  · rw [List.length_drop]
    exact Nat.sub_le _ _
  · exact hDrop

theorem skipWhitespace_grows {c : Byte} {left : Bytes} (h : skipWhitespace s = c :: left)
    (hc : 32 < c) :
    (∃ b text, s = b :: text ∧ (b ≤ 32 ∨ b = c)) ∧
      ∀ more, skipWhitespace (s ++ more) = c :: left ++ more := by
  induction s with
  | nil =>
    rw [skipWhitespace, List.dropWhile_nil] at h
    cases h
  | cons b s ih =>
    by_cases hb : b ≤ 32
    · refine ⟨⟨b, s, rfl, .inl hb⟩, fun more => ?_⟩
      have hDrop : ∀ t : Bytes, (b :: t).dropWhile (fun b => b ≤ 32) =
          t.dropWhile fun b => b ≤ 32 := fun t => List.dropWhile_cons_of_pos (by simpa using hb)
      cases s with
      | nil =>
        rw [skipWhitespace, hDrop, List.dropWhile_nil] at h
        cases h
        exact absurd hc (UInt8.not_lt.mpr hb)
      | cons d s =>
        have hTail : ∀ t : Bytes, skipWhitespace (b :: d :: t) = skipWhitespace (d :: t) := by
          intro t
          rw [skipWhitespace, hDrop, skipWhitespace]
          simp
        rw [hTail] at h
        rw [List.cons_append, List.cons_append, hTail, ← List.cons_append]
        exact (ih h).2 more
    · have hb : 32 < b := UInt8.not_le.mp hb
      rw [skipWhitespace_cons hb] at h
      cases h
      exact ⟨⟨_, _, rfl, .inr rfl⟩, fun more => skipWhitespace_cons hb _⟩

theorem skips {close : Byte} (h : 32 < close) : Skips skipWhitespace comma close where
  sep := skipWhitespace_cons (by decide)
  close := skipWhitespace_cons h
  length := skipWhitespace_length

theorem settles {close : Byte} (h : 32 < close) (hNumber : isNumberByte close = false) :
    Settles (isNumberByte · = false) skipWhitespace comma close where
  ends text c left hSkip hc := by
    have hBlank : ∀ b : Byte, b ≤ 32 → isNumberByte b = false := by
      intro b hb
      have hLow : ∀ n : Fin 33, isNumberByte (UInt8.ofNat n) = false := by decide
      have hb := UInt8.le_iff_toNat_le.mp hb
      have := hLow ⟨b.toNat, Nat.lt_succ_of_le hb⟩
      rwa [UInt8.ofNat_toNat] at this
    have hHigh : 32 < c := by
      rcases hc with rfl | rfl
      · decide
      · exact h
    obtain ⟨b, rest, rfl, hb⟩ := (skipWhitespace_grows hSkip hHigh).1
    refine ⟨b, rest, rfl, ?_⟩
    rcases hb with hb | rfl
    · exact hBlank b hb
    · rcases hc with rfl | rfl
      · decide
      · exact hNumber
  grows text c left more hSkip hc := by
    have hHigh : 32 < c := by
      rcases hc with rfl | rfl
      · decide
      · exact h
    exact (skipWhitespace_grows hSkip hHigh).2 more

theorem ascii_null : ascii "null" = [110, 117, 108, 108] := ascii_ofList ['n', 'u', 'l', 'l']

theorem ascii_false : ascii "false" = [102, 97, 108, 115, 101] :=
  ascii_ofList ['f', 'a', 'l', 's', 'e']

theorem ascii_true : ascii "true" = [116, 114, 117, 101] := ascii_ofList ['t', 'r', 'u', 'e']

inductive Word : Bytes → CJson → Prop
  | null : Word (ascii "null") .null
  | false : Word (ascii "false") (.bool false)
  | true : Word (ascii "true") (.bool true)

theorem parseValue_word {word : Bytes} (h : Word word node) (rest : Bytes) :
    parseValue num room (word ++ rest) = .ok (node, rest) := by
  cases h <;> unfold parseValue <;> simp [ascii_null, ascii_false, ascii_true]

theorem parseValue_string (text : Bytes) :
    parseValue num room (quote :: text) =
      (parseString (quote :: text)).map fun r => (.string r.1, r.2) := by
  unfold parseValue
  simp [ascii_null, ascii_false, ascii_true, quote]

theorem parseValue_number {text : Bytes} (h : b = 45 ∨ isDigit b = true) :
    parseValue num room (b :: text) = parseNumber num (b :: text) := by
  have hWord : b ≠ 110 ∧ b ≠ 102 ∧ b ≠ 116 ∧ b ≠ quote := by
    rcases h with rfl | h
    · decide
    · refine ⟨?_, ?_, ?_, ?_⟩ <;> rintro rfl <;> exact absurd h (by decide)
  unfold parseValue
  simp [ascii_null, ascii_false, ascii_true, hWord, h]

theorem parseValue_array (text : Bytes) :
    parseValue num (room + 1) (openArray :: text) =
      (parseBody (fun s => parseValue num room (skipWhitespace s)) openArray closeArray text).map
        fun r => (.array r.1, r.2) := by
  rw [parseValue]
  simp [ascii_null, ascii_false, ascii_true, quote, isDigit, openArray]

theorem parseValue_object (text : Bytes) :
    parseValue num (room + 1) (openObject :: text) =
      (parseBody (parseMember (parseValue num room)) openObject closeObject text).map
        fun r => (.object r.1, r.2) := by
  rw [parseValue]
  simp [ascii_null, ascii_false, ascii_true, quote, isDigit, openArray, openObject]

inductive Accepted (num : NumLib) : Nat → Bytes → CJson → Bytes → Prop
  | word {room : Nat} {word rest : Bytes} {node : CJson} (h : Word word node) :
      Accepted num room (word ++ rest) node rest
  | string {room : Nat} {text output rest : Bytes}
      (h : parseString (quote :: text) = .ok (output, rest)) :
      Accepted num room (quote :: text) (.string output) rest
  | number {room : Nat} {b : Byte} {text rest : Bytes} {node : CJson}
      (hb : b = 45 ∨ isDigit b = true) (h : parseNumber num (b :: text) = .ok (node, rest)) :
      Accepted num room (b :: text) node rest
  | array {room : Nat} {text rest : Bytes} {children : List CJson}
      (h : parseBody (fun s => parseValue num room (skipWhitespace s)) openArray closeArray text =
        .ok (children, rest)) :
      Accepted num (room + 1) (openArray :: text) (.array children) rest
  | object {room : Nat} {text rest : Bytes} {members : List (Bytes × CJson)}
      (h : parseBody (parseMember (parseValue num room)) openObject closeObject text =
        .ok (members, rest)) :
      Accepted num (room + 1) (openObject :: text) (.object members) rest

theorem parseValue_accepted (h : parseValue num room s = .ok (node, rest)) :
    Accepted num room s node rest := by
  have hMap : ∀ {α β : Type} {r : Except Bytes α} {f : α → β} {b : β},
      r.map f = .ok b → ∃ a, r = .ok a ∧ f a = b := by
    intro α β r f b hMap
    cases r with
    | error e => cases hMap
    | ok a => exact ⟨a, rfl, by cases hMap; rfl⟩
  have hWord : ∀ {n : Nat} {word : Bytes} {found : CJson}, s.take n = word → Word word found →
      node = found → rest = s.drop n → Accepted num room s node rest := by
    rintro n word found rfl hWord rfl rfl
    have hAccepted : Accepted num room (s.take n ++ s.drop n) node (s.drop n) := .word hWord
    rwa [List.take_append_drop] at hAccepted
  unfold parseValue at h
  split at h
  · rename_i hTake
    cases h
    exact hWord hTake .null rfl rfl
  split at h
  · rename_i hTake
    cases h
    exact hWord hTake .false rfl rfl
  split at h
  · rename_i hTake
    cases h
    exact hWord hTake .true rfl rfl
  split at h
  · cases h
  rename_i b text
  split at h
  · rename_i hQuote
    subst hQuote
    obtain ⟨r, hRead, hNode⟩ := hMap h
    cases hNode
    exact .string hRead
  split at h
  · rename_i hb
    exact .number hb h
  split at h
  · rename_i hOpen
    subst hOpen
    cases room with
    | zero => cases h
    | succ room =>
      obtain ⟨r, hRead, hNode⟩ := hMap h
      cases hNode
      exact .array hRead
  split at h
  · rename_i hOpen
    subst hOpen
    cases room with
    | zero => cases h
    | succ room =>
      obtain ⟨r, hRead, hNode⟩ := hMap h
      cases hNode
      exact .object hRead
  · cases h

theorem printItems_eq (children : List CJson) :
    printItems num children = joined comma (children.map (printValue num)) := by
  induction children with
  | nil => rfl
  | cons item rest ih =>
    cases rest with
    | nil => rfl
    | cons next rest =>
      rw [printItems, ih]
      · rfl
      · simp

def printMember (num : NumLib) (m : Bytes × CJson) : Bytes :=
  printString m.1 ++ colon :: printValue num m.2

theorem printMembers_eq (members : List (Bytes × CJson)) :
    printMembers num members = joined comma (members.map (printMember num)) := by
  induction members with
  | nil => rfl
  | cons m rest ih =>
    cases rest with
    | nil => rfl
    | cons next rest =>
      have hJoined : joined comma ((m :: next :: rest).map (printMember num)) =
          printString m.1 ++ colon :: (printValue num m.2 ++
            comma :: joined comma ((next :: rest).map (printMember num))) := by
        rw [List.map_cons, List.map_cons, joined_cons, printMember, List.append_assoc]
        rfl
      rw [hJoined, printMembers, ih]
      simp

mutual

def clip : CJson → CJson
  | .null => .null
  | .bool b => .bool b
  | .number d => .number d
  | .string s => .string (cstr s)
  | .array children => .array (clipItems children)
  | .object members => .object (clipMembers members)

def clipItems : List CJson → List CJson
  | [] => []
  | item :: rest => clip item :: clipItems rest

def clipMembers : List (Bytes × CJson) → List (Bytes × CJson)
  | [] => []
  | (name, item) :: rest => (cstr name, clip item) :: clipMembers rest

end

theorem clipItems_eq (children : List CJson) : clipItems children = children.map clip := by
  induction children with
  | nil => rfl
  | cons item rest ih => rw [clipItems, ih, List.map_cons]

theorem clipMembers_eq (members : List (Bytes × CJson)) :
    clipMembers members = members.map fun m => (cstr m.1, clip m.2) := by
  induction members with
  | nil => rfl
  | cons m rest ih =>
    obtain ⟨name, item⟩ := m
    rw [clipMembers, ih, List.map_cons]

/-- Brackets in brackets only so deep, and every number of the tree is one of these. -/
inductive Within (Number : Double → Prop) : Nat → CJson → Prop
  | null {room : Nat} : Within Number room .null
  | bool {room : Nat} {b : Bool} : Within Number room (.bool b)
  | number {room : Nat} {d : Double} (h : Number d) : Within Number room (.number d)
  | string {room : Nat} {s : Bytes} : Within Number room (.string s)
  | array {room : Nat} {children : List CJson} (h : ∀ item ∈ children, Within Number room item) :
      Within Number (room + 1) (.array children)
  | object {room : Nat} {members : List (Bytes × CJson)}
      (h : ∀ m ∈ members, Within Number room m.2) : Within Number (room + 1) (.object members)

variable {Number Other : Double → Prop} {n : Nat}

theorem Within.with (h : Within Number room node) (hOther : Within Other n node) :
    Within Other room node := by
  induction h generalizing n with
  | null => exact .null
  | bool => exact .bool
  | number => cases hOther with | number h => exact .number h
  | string => exact .string
  | array _ ih => cases hOther with | array h => exact .array fun item hi => ih item hi (h item hi)
  | object _ ih => cases hOther with | object h => exact .object fun m hm => ih m hm (h m hm)

theorem Within.mono (h : Within Number room node) (hn : room ≤ n) : Within Number n node := by
  induction h generalizing n with
  | null => exact .null
  | bool => exact .bool
  | number h => exact .number h
  | string => exact .string
  | array _ ih =>
    obtain ⟨n, rfl⟩ := Nat.exists_eq_add_of_lt hn
    exact .array fun item hi => ih item hi (by omega)
  | object _ ih =>
    obtain ⟨n, rfl⟩ := Nat.exists_eq_add_of_lt hn
    exact .object fun m hm => ih m hm (by omega)

theorem Within.clip (h : Within Number room node) : Within Number room (clip node) := by
  induction h with
  | null => exact .null
  | bool => exact .bool
  | number h => exact .number h
  | string => exact .string
  | array _ ih =>
    rw [Cjson.clip, clipItems_eq]
    refine .array fun item hi => ?_
    obtain ⟨child, hChild, rfl⟩ := List.mem_map.mp hi
    exact ih child hChild
  | object _ ih =>
    rw [Cjson.clip, clipMembers_eq]
    refine .object fun m hm => ?_
    obtain ⟨member, hMember, rfl⟩ := List.mem_map.mp hm
    exact ih member hMember

theorem printValue_clip (h : Within Number room node) :
    printValue num (clip node) = printValue num node := by
  induction h with
  | null => rfl
  | bool => rfl
  | number => rfl
  | string =>
    simp only [clip, printValue, printString_cstr]
  | @array _ children _ ih =>
    have hItems : (children.map clip).map (printValue num) = children.map (printValue num) := by
      rw [List.map_map]
      exact List.map_congr_left ih
    rw [clip, clipItems_eq, printValue, printItems_eq, hItems, printValue, printItems_eq]
  | @object _ members _ ih =>
    have hMembers : (members.map fun m => (cstr m.1, clip m.2)).map (printMember num) =
        members.map (printMember num) := by
      rw [List.map_map]
      refine List.map_congr_left fun m hm => ?_
      simp only [Function.comp_apply, printMember, printString_cstr, ih m hm]
    rw [clip, clipMembers_eq, printValue, printMembers_eq, hMembers, printValue, printMembers_eq]

theorem printValue_head (h : Within (NumberBack num) room node) :
    ∃ c text, printValue num node = c :: text ∧ 32 < c ∧ c ≠ closeArray ∧ c ≠ 0xef := by
  cases h with
  | null => exact ⟨110, _, by rw [printValue, ascii_null], by decide, by decide⟩
  | @bool _ b =>
    cases b with
    | false => exact ⟨102, [97, 108, 115, 101], ascii_false, by decide, by decide⟩
    | true => exact ⟨116, [114, 117, 101], ascii_true, by decide, by decide⟩
  | number h =>
    obtain ⟨c, text, hText, hc⟩ := h.head
    refine ⟨c, text, by rw [printValue, hText], ?_⟩
    rcases hc with rfl | hc
    · decide
    · rw [isDigit, Bool.and_eq_true, decide_eq_true_eq, decide_eq_true_eq] at hc
      refine ⟨UInt8.lt_of_lt_of_le (by decide) hc.1, ?_, ?_⟩
      all_goals
        rintro rfl
        exact absurd hc.2 (by decide)
  | string => exact ⟨quote, _, by rw [printValue, printString], by decide, by decide⟩
  | array => exact ⟨openArray, _, by rw [printValue], by decide, by decide⟩
  | object => exact ⟨openObject, _, by rw [printValue], by decide, by decide⟩

theorem number_printable (h : isNumberByte b = true) : 31 < b := by
  by_contra hLow
  have hNone : ∀ n : Fin 32, isNumberByte (UInt8.ofNat n) = false := by decide
  rw [UInt8.not_lt, UInt8.le_iff_toNat_le] at hLow
  have := hNone ⟨b.toNat, Nat.lt_succ_of_le hLow⟩
  rw [UInt8.ofNat_toNat, h] at this
  cases this

/-- The text of a tree is one line. -/
theorem printValue_printable (h : Within (NumberBack num) room node) :
    ∀ c ∈ printValue num node, 31 < c := by
  induction h with
  | null => rw [printValue, ascii_null]; decide +kernel
  | @bool _ b => cases b <;> simp only [printValue, ascii_false, ascii_true] <;> decide +kernel
  | number h => exact fun c hc => number_printable (h.bytes c hc)
  | string => exact printString_printable
  | @array _ children _ ih =>
    have hItems : ∀ c ∈ printItems num children, 31 < c := by
      rw [printItems_eq]
      refine joined_forall (fun piece hPiece => ?_) (by decide)
      obtain ⟨item, hItem, rfl⟩ := List.mem_map.mp hPiece
      exact ih item hItem
    intro c hc
    rw [printValue, List.mem_cons, List.mem_append, List.mem_singleton] at hc
    rcases hc with rfl | hc | rfl
    · decide
    · exact hItems c hc
    · decide
  | @object _ members _ ih =>
    have hMembers : ∀ c ∈ printMembers num members, 31 < c := by
      rw [printMembers_eq]
      refine joined_forall (fun piece hPiece => ?_) (by decide)
      obtain ⟨m, hm, rfl⟩ := List.mem_map.mp hPiece
      intro c hc
      rw [printMember, List.mem_append, List.mem_cons] at hc
      rcases hc with hc | rfl | hc
      · exact printString_printable c hc
      · decide
      · exact ih m hm c hc
    intro c hc
    rw [printValue, List.mem_cons, List.mem_append, List.mem_singleton] at hc
    rcases hc with rfl | hc | rfl
    · decide
    · exact hMembers c hc
    · decide

theorem parseBody_joined {α : Type} {item : Reader α Byte} {shown : α → Bytes}
    {opened close : Byte} {as : List α} (hClose : 32 < close) (hComma : comma ≠ close)
    (hNumber : isNumberByte close = false)
    (hHead : ∀ a ∈ as, ∃ c text, shown a = c :: text ∧ 32 < c ∧ c ≠ close)
    (hItems : ∀ a ∈ as, ReadsBack item shown Follows a) :
    parseBody item opened close (joined comma (as.map shown) ++ close :: rest) =
      .ok (as, rest) := by
  cases as with
  | nil =>
    rw [List.map_nil, joined, List.nil_append, parseBody, skipWhitespace_cons hClose]
    exact if_pos rfl
  | cons a as =>
    obtain ⟨c, text, hShown, hc, hNe⟩ := hHead a List.mem_cons_self
    obtain ⟨more, hText⟩ : ∃ more, joined comma ((a :: as).map shown) ++ close :: rest =
        c :: more := by
      rw [List.map_cons, hShown]
      cases as with
      | nil => exact ⟨text ++ close :: rest, rfl⟩
      | cons b as => exact ⟨_, rfl⟩
    have hTurns : (a :: as).length ≤ more.length + 2 := by
      have hPieces := length_pieces comma ((a :: as).map shown)
      have hLength := congrArg List.length hText
      rw [List.length_append, List.length_cons] at hLength
      rw [List.length_map] at hPieces
      simp only [List.length_cons] at hLength hPieces ⊢
      omega
    have hRead : items item skipWhitespace comma close (more.length + 2)
        (joined comma ((a :: as).map shown) ++ close :: rest) = .ok (a :: as, rest) :=
      items_joined (skips hClose) hComma (fun text => follows_cons (by decide))
        (fun text => follows_cons hNumber) (List.cons_ne_nil a as) hItems hTurns
    rw [hText] at hRead ⊢
    rw [parseBody, skipWhitespace_cons hc]
    exact (if_neg hNe).trans hRead

/-- A printed tree is parsed back. -/
theorem parseValue_printValue (h : Within (NumberBack num) room node) (hRest : Follows rest) :
    parseValue num room (printValue num node ++ rest) = .ok (clip node, rest) := by
  induction h generalizing rest with
  | null =>
    rw [printValue, clip]
    exact parseValue_word .null rest
  | @bool _ b =>
    rw [printValue, clip]
    cases b with
    | false => exact parseValue_word .false rest
    | true => exact parseValue_word .true rest
  | number h =>
    obtain ⟨c, text, hText, hc⟩ := h.head
    have hRead := parseNumber_printNumber h hRest
    rw [hText] at hRead
    rw [printValue, clip, hText, List.cons_append, parseValue_number hc]
    exact hRead
  | @string _ s =>
    have hRead := parseString_printString s rest
    rw [printValue, clip]
    rw [printString, List.cons_append] at hRead ⊢
    rw [parseValue_string, hRead]
    rfl
  | @array room children h ih =>
    have hItems : (children.map clip).map (printValue num) = children.map (printValue num) := by
      rw [List.map_map]
      exact List.map_congr_left fun item hItem => printValue_clip (h item hItem)
    rw [printValue, clip, clipItems_eq, printItems_eq, List.cons_append, List.append_assoc,
      List.singleton_append, parseValue_array, ← hItems, parseBody_joined (by decide) (by decide)
        (by decide)]
    · rfl
    · intro item hItem
      obtain ⟨child, hChild, rfl⟩ := List.mem_map.mp hItem
      obtain ⟨c, text, hText, hc, hNe, -⟩ := printValue_head (h child hChild).clip
      exact ⟨c, text, hText, hc, hNe⟩
    · intro item hItem text hText
      obtain ⟨child, hChild, rfl⟩ := List.mem_map.mp hItem
      obtain ⟨c, shown, hShown, hc, -⟩ := printValue_head (h child hChild)
      have hRead := ih child hChild hText
      rw [printValue_clip (h child hChild)]
      rw [hShown, List.cons_append] at hRead ⊢
      dsimp only
      rw [skipWhitespace_cons hc]
      exact hRead
  | @object room members h ih =>
    have hMembers : (members.map fun m => (cstr m.1, clip m.2)).map (printMember num) =
        members.map (printMember num) := by
      rw [List.map_map]
      refine List.map_congr_left fun m hm => ?_
      simp only [Function.comp_apply, printMember, printString_cstr, printValue_clip (h m hm)]
    rw [printValue, clip, clipMembers_eq, printMembers_eq, List.cons_append, List.append_assoc,
      List.singleton_append, parseValue_object, ← hMembers, parseBody_joined (by decide) (by decide)
        (by decide)]
    · rfl
    · exact fun m _ => ⟨quote, _, rfl, by decide, by decide⟩
    · intro m hm text hText
      obtain ⟨⟨name, item⟩, hMember, rfl⟩ := List.mem_map.mp hm
      obtain ⟨c, shown, hShown, hc, -⟩ := printValue_head (h _ hMember)
      have hName := parseString_printString name (colon :: (printValue num item ++ text))
      have hRead := ih _ hMember hText
      have hMemberText : printMember num (cstr name, clip item) ++ text =
          printString name ++ colon :: (printValue num item ++ text) := by
        rw [printMember, printString_cstr, printValue_clip (h _ hMember), List.append_assoc]
        rfl
      have hBlank : skipWhitespace (printString name ++ colon :: (printValue num item ++ text)) =
          printString name ++ colon :: (printValue num item ++ text) :=
        skipWhitespace_cons (by decide) _
      rw [hMemberText, parseMember, if_neg (by simp [printString]), hBlank, hName]
      dsimp only
      rw [skipWhitespace_cons (by decide)]
      dsimp only
      rw [if_pos rfl]
      rw [hShown, List.cons_append] at hRead ⊢
      rw [skipWhitespace_cons hc, hRead]
      rfl

theorem skipBom_cons (h : b ≠ 0xef) (s : Bytes) : skipBom (b :: s) = b :: s := by
  rw [skipBom, if_neg]
  rintro ⟨-, hTake⟩
  rw [List.take_succ_cons, List.cons.injEq] at hTake
  exact h hTake.1

theorem parseWithLength_printValue (h : Within (NumberBack num) nestingLimit node) :
    parseWithLength num (printValue num node) =
      .ok (clip node, (printValue num node).length) := by
  obtain ⟨c, text, hText, hc, -, hBom⟩ := printValue_head h
  have hRead := parseValue_printValue h follows_nil
  rw [List.append_nil] at hRead
  rw [hText] at hRead ⊢
  rw [parseWithLength, if_neg (List.cons_ne_nil c text), skipBom_cons hBom, skipWhitespace_cons hc,
    hRead]
  rfl

theorem skipWhitespace_blank {c : Byte} (h : skipWhitespace s = c :: rest) (hc : c ≤ 32) :
    rest = [] := by
  rw [skipWhitespace] at h
  split at h
  · have hLength := congrArg List.length h
    rw [List.length_drop, List.length_cons] at hLength
    exact List.length_eq_zero_iff.mp (by omega)
  · have hHead := List.head?_dropWhile_not (fun b : Byte => b ≤ 32) s
    rw [h] at hHead
    simp [hc] at hHead

theorem parseString_head {output : Bytes} (h : parseString (b :: s) = .ok (output, rest)) :
    b = quote := by
  by_contra hQuote
  rw [parseString, if_pos (by simpa using hQuote)] at h
  cases h

theorem accepted_head (h : Accepted num room s node rest) :
    ∃ c text, s = c :: text ∧ 32 < c ∧ c < 128 := by
  cases h with
  | @word _ word rest _ h =>
    cases h with
    | null => exact ⟨110, [117, 108, 108] ++ rest, by rw [ascii_null]; rfl, by decide, by decide⟩
    | false => exact ⟨102, [97, 108, 115, 101] ++ rest, by rw [ascii_false]; rfl, by decide, by decide⟩
    | true => exact ⟨116, [114, 117, 101] ++ rest, by rw [ascii_true]; rfl, by decide, by decide⟩
  | string => exact ⟨quote, _, rfl, by decide, by decide⟩
  | @number _ b text _ _ hb _ =>
    refine ⟨b, text, rfl, ?_⟩
    rcases hb with rfl | hb
    · decide
    · rw [isDigit, Bool.and_eq_true, decide_eq_true_eq, decide_eq_true_eq] at hb
      exact ⟨UInt8.lt_of_lt_of_le (by decide) hb.1, UInt8.lt_of_le_of_lt hb.2 (by decide)⟩
  | array => exact ⟨openArray, _, rfl, by decide, by decide⟩
  | object => exact ⟨openObject, _, rfl, by decide, by decide⟩

theorem value_grows (h : parseValue num room (skipWhitespace s) = .ok (node, rest))
    (more : Bytes) : skipWhitespace (s ++ more) = skipWhitespace s ++ more := by
  obtain ⟨c, text, hText, hc, -⟩ := accepted_head (parseValue_accepted h)
  rw [hText]
  exact (skipWhitespace_grows hText hc).2 more

theorem parseBody_settled {α : Type} {item : Reader α Byte} {opened close : Byte} {as : List α}
    {left : Bytes} (hClose : 32 < close) (hNumber : isNumberByte close = false)
    (hItem : SettledBy (isNumberByte · = false) item)
    (hBlank : ∀ c ≤ 32, ∀ r, item [c] ≠ .ok r)
    (h : parseBody item opened close s = .ok (as, left)) (more : Bytes) :
    parseBody item opened close (s ++ more) = .ok (as, left ++ more) := by
  rw [parseBody] at h
  cases hSkip : skipWhitespace s with
  | nil =>
    rw [hSkip] at h
    cases h
  | cons c rest =>
    rw [hSkip] at h
    dsimp only at h
    have hc : 32 < c := by
      by_contra hLow
      rw [UInt8.not_lt] at hLow
      obtain rfl := skipWhitespace_blank hSkip hLow
      have hNe : c ≠ close := by
        rintro rfl
        exact absurd hClose (UInt8.not_lt.mpr hLow)
      rw [if_neg hNe] at h
      obtain ⟨a, behind, -, -, hRead, -⟩ := items_cases h
      exact hBlank c hLow _ hRead
    rw [parseBody, (skipWhitespace_grows hSkip hc).2 more]
    dsimp only [List.cons_append]
    split at h
    · rename_i hEq
      cases h
      rw [if_pos hEq]
    · rename_i hNe
      rw [if_neg hNe]
      refine items_settled hItem (settles hClose hNumber) h more ?_
      rw [List.length_append]
      omega

theorem parseMember_value {value : Reader CJson Byte} {m : Bytes × CJson} {left : Bytes}
    (h : parseMember value s = .ok (m, left)) : ∃ text rest, value text = .ok (m.2, rest) := by
  rw [parseMember] at h
  split at h
  · cases h
  split at h
  · cases h
  split at h
  · cases h
  split at h
  · rename_i behind _ c rest _ _
    cases hRead : value (skipWhitespace rest) with
    | error e =>
      rw [hRead] at h
      cases h
    | ok r =>
      rw [hRead] at h
      cases h
      exact ⟨_, _, hRead⟩
  · cases h

theorem member_settled {value : Reader CJson Byte}
    (hValue : SettledBy (isNumberByte · = false) fun s => value (skipWhitespace s)) :
    SettledBy (isNumberByte · = false) (parseMember value) := by
  intro text m b left more h hb
  rw [parseMember] at h
  split at h
  · cases h
  rename_i hNe
  cases hName : parseString (skipWhitespace text) with
  | error e =>
    rw [hName] at h
    cases h
  | ok r =>
    obtain ⟨name, behind⟩ := r
    rw [hName] at h
    dsimp only at h
    have hGrows : skipWhitespace (text ++ more) = skipWhitespace text ++ more := by
      cases hSkip : skipWhitespace text with
      | nil =>
        rw [hSkip] at hName
        cases hName
      | cons c rest =>
        rw [hSkip] at hName
        obtain rfl := parseString_head hName
        exact (skipWhitespace_grows hSkip (by decide)).2 more
    rw [parseMember, if_neg (List.append_ne_nil_of_left_ne_nil hNe more), hGrows,
      parseString_append more hName]
    dsimp only
    cases hColon : skipWhitespace behind with
    | nil =>
      rw [hColon] at h
      cases h
    | cons c rest =>
      rw [hColon] at h
      dsimp only at h
      split at h
      · rename_i hEq
        subst hEq
        rw [(skipWhitespace_grows hColon (by decide)).2 more]
        dsimp only [List.cons_append]
        rw [if_pos rfl]
        cases hRead : value (skipWhitespace rest) with
        | error e =>
          rw [hRead] at h
          cases h
        | ok r =>
          obtain ⟨item, behind⟩ := r
          rw [hRead] at h
          cases h
          have hMore := hValue rest item b left more hRead hb
          dsimp only at hMore
          rw [hMore]
          rfl
      · cases h

theorem spaced_settled (hValue : SettledBy (isNumberByte · = false) (parseValue num room)) :
    SettledBy (isNumberByte · = false) fun s => parseValue num room (skipWhitespace s) := by
  intro text a b left more h hb
  dsimp only at h ⊢
  rw [value_grows h]
  exact hValue _ a b left more h hb

theorem skipWhitespace_single {c : Byte} (hc : c ≤ 32) : skipWhitespace [c] = [c] := by
  rw [skipWhitespace, List.dropWhile_cons_of_pos (by simpa using hc)]
  rfl

theorem spaced_blank {c : Byte} (hc : c ≤ 32) (r : CJson × Bytes) :
    parseValue num room (skipWhitespace [c]) ≠ .ok r := by
  intro h
  rw [skipWhitespace_single hc] at h
  obtain ⟨d, text, hText, hd, -⟩ := accepted_head (parseValue_accepted h)
  cases hText
  exact absurd hd (UInt8.not_lt.mpr hc)

theorem member_blank {c : Byte} (hc : c ≤ 32) (value : Reader CJson Byte)
    (r : (Bytes × CJson) × Bytes) : parseMember value [c] ≠ .ok r := by
  intro h
  rw [parseMember, if_neg (List.cons_ne_nil c []), skipWhitespace_single hc] at h
  cases hName : parseString [c] with
  | error e =>
    rw [hName] at h
    cases h
  | ok name =>
    obtain rfl := parseString_head hName
    exact absurd hc (by decide)

/-- Nothing but a number goes on into the text behind it. -/
theorem parseValue_settled (h : parseValue num room s = .ok (node, rest))
    (hEnd : (∀ d, node ≠ .number d) ∨ ∃ b left, rest = b :: left ∧ isNumberByte b = false)
    (more : Bytes) : parseValue num room (s ++ more) = .ok (node, rest ++ more) := by
  induction room using Nat.strong_induction_on generalizing s node rest more with
  | _ room ih =>
    have hValue : ∀ n < room, SettledBy (isNumberByte · = false) (parseValue num n) :=
      fun n hn text a b left more hRead hb => ih n hn hRead (.inr ⟨b, left, rfl, hb⟩) more
    cases parseValue_accepted h with
    | word hWord =>
      rw [List.append_assoc]
      exact parseValue_word hWord _
    | string hRead =>
      have hMore := parseString_append more hRead
      rw [List.cons_append] at hMore ⊢
      rw [parseValue_string, hMore]
      rfl
    | number hb hRead =>
      obtain ⟨d, rfl, -⟩ := parseNumber_scanned hRead
      rcases hEnd with hKind | ⟨b, left, rfl, hNumber⟩
      · exact absurd rfl (hKind d)
      · have hMore := parseNumber_settled more hRead hNumber
        rw [List.cons_append] at hMore ⊢
        rw [parseValue_number hb, hMore]
    | @array room _ _ _ hRead =>
      have hMore := parseBody_settled (by decide) (by decide)
        (spaced_settled (hValue room (Nat.lt_succ_self room))) (fun c hc => spaced_blank hc)
        hRead more
      rw [List.cons_append, parseValue_array, hMore]
      rfl
    | @object room _ _ _ hRead =>
      have hMore := parseBody_settled (by decide) (by decide)
        (member_settled (spaced_settled (hValue room (Nat.lt_succ_self room))))
        (fun c hc => member_blank hc _) hRead more
      rw [List.cons_append, parseValue_object, hMore]
      rfl

theorem parseValue_within (h : parseValue num room s = .ok (node, rest)) :
    Within (Scanned num) room node := by
  induction room using Nat.strong_induction_on generalizing s node rest with
  | _ room ih =>
    cases parseValue_accepted h with
    | word hWord => cases hWord <;> constructor
    | string => exact .string
    | number _ hRead =>
      obtain ⟨d, rfl, hScanned⟩ := parseNumber_scanned hRead
      exact .number hScanned
    | @array room text _ children hRead =>
      refine .array ?_
      rw [parseBody] at hRead
      split at hRead
      · cases hRead
      split at hRead
      · cases hRead
        exact fun item hItem => absurd hItem List.not_mem_nil
      · exact items_forall (fun t a left hItem => ih room (Nat.lt_succ_self room) hItem) hRead
    | @object room text _ members hRead =>
      refine .object ?_
      rw [parseBody] at hRead
      split at hRead
      · cases hRead
      split at hRead
      · cases hRead
        exact fun m hm => absurd hm List.not_mem_nil
      · refine items_forall (fun t m left hMember => ?_) hRead
        obtain ⟨u, v, hItem⟩ := parseMember_value hMember
        exact ih room (Nat.lt_succ_self room) hItem

def decimalValue (digits : Bytes) : Nat := digits.foldl (fun n b => 10 * n + (b.toNat - 48)) 0

def decimalNum : NumLib where
  strtod s := (.ofInt (decimalValue (s.takeWhile isDigit)), (s.takeWhile isDigit).length)
  taken _ := (List.takeWhile_prefix _).length_le
  format _ := []

theorem readsInts_decimalNum : ReadsInts decimalNum := by
  intro n _
  have hDigits : (decimal n).takeWhile isDigit = decimal n :=
    List.takeWhile_eq_self_iff.mpr fun b hb => decimal_digits hb
  have hText : decimal n = (Nat.toDigits 10 n).map fun c => UInt8.ofNat c.toNat := by
    change ascii (Nat.repr n) = _
    rw [Nat.repr, ascii_ofList]
  have hFold : ∀ (l : List Char) (init : Nat), (∀ c ∈ l, c.toNat < 256) →
      (l.map fun c => UInt8.ofNat c.toNat).foldl (fun n b => 10 * n + (b.toNat - 48)) init =
        Nat.ofDigitChars 10 l init := by
    intro l
    induction l with
    | nil => exact fun init _ => Nat.ofDigitChars_nil.symm
    | cons c l ih =>
      intro init hl
      rw [List.forall_mem_cons] at hl
      rw [List.map_cons, List.foldl_cons, ih _ hl.2, Nat.ofDigitChars_cons, UInt8.toNat_ofNat',
        Nat.mod_eq_of_lt hl.1]
      rfl
  have hSmall : ∀ c ∈ Nat.toDigits 10 n, c.toNat < 256 := by
    intro c hc
    have hDigit := Nat.isDigit_of_mem_toDigits (by decide) (by decide) hc
    rw [Char.isDigit, Bool.and_eq_true, decide_eq_true_eq, decide_eq_true_eq] at hDigit
    have hHigh : c.toNat ≤ 57 := UInt32.le_iff_toNat_le.mp hDigit.2
    omega
  have hValue : decimalValue (decimal n) = n := by
    rw [decimalValue, hText, hFold _ _ hSmall, Nat.ofDigitChars_ten_toDigits]
  change (Double.ofInt _, _) = _
  rw [hDigits, hValue]

def sampleTree : CJson :=
  .object [(ascii "a", .array [.number (.ofInt 12), .string [104, 34, 0, 105], .null])]

theorem sampleTree_within (room : Nat) : Within (NumberBack decimalNum) (room + 2) sampleTree := by
  refine .object fun m hm => ?_
  obtain rfl := List.mem_singleton.mp hm
  refine .array ?_
  simp only [List.forall_mem_cons]
  exact ⟨.number (numberBack_ofInt readsInts_decimalNum (by decide)), .string, .null,
    fun _ h => absurd h List.not_mem_nil⟩

variable {doc : Bytes}

theorem parseWithLength_value (h : parseWithLength num doc = .ok (node, n)) :
    ∃ rest, parseValue num nestingLimit (skipWhitespace (skipBom doc)) = .ok (node, rest) ∧
      n = doc.length - rest.length := by
  rw [parseWithLength] at h
  split at h
  · cases h
  split at h
  · rename_i hRead
    cases h
    exact ⟨_, hRead, rfl⟩
  · cases h

theorem parseWithLength_append (h : parseWithLength num doc = .ok (node, n))
    (hKind : ∀ d, node ≠ .number d) (more : Bytes) :
    parseWithLength num (doc ++ more) = .ok (node, n) := by
  obtain ⟨rest, hRead, rfl⟩ := parseWithLength_value h
  have hNe : doc ≠ [] := by
    rintro rfl
    cases h
  have hBom : skipBom (doc ++ more) = skipBom doc ++ more := by
    by_cases hMark : 4 < doc.length ∧ doc.take 3 = [0xef, 0xbb, 0xbf]
    · rw [skipBom, if_pos, skipBom, if_pos hMark, List.drop_append_of_le_length (by omega)]
      rw [List.length_append, List.take_append_of_le_length (by omega)]
      exact ⟨by omega, hMark.2⟩
    · have hPlain : skipBom doc = doc := if_neg hMark
      rw [hPlain] at hRead
      obtain ⟨c, text, hText, hc, hAscii⟩ := accepted_head (parseValue_accepted hRead)
      obtain ⟨b, text, rfl, hb⟩ := (skipWhitespace_grows hText hc).1
      have hNoMark : b ≠ 0xef := by
        rintro rfl
        rcases hb with hb | rfl
        · exact absurd hb (by decide)
        · exact absurd hAscii (by decide)
      rw [List.cons_append, skipBom_cons hNoMark, skipBom_cons hNoMark, List.cons_append]
  rw [parseWithLength, if_neg (List.append_ne_nil_of_left_ne_nil hNe more), hBom, value_grows hRead,
    parseValue_settled hRead (.inl hKind)]
  simp only [List.length_append, Nat.add_sub_add_right]

/-- Of any text that is accepted: its tree nests no deeper than the limit; a text behind it changes
nothing, unless it is a number; and if its numbers are read back, its own text is accepted, as the
tree that C sees, which has the same text. -/
theorem parseWithLength_accepted (h : parseWithLength num doc = .ok (node, n)) :
    (Within (Scanned num) nestingLimit node ∧ n ≤ doc.length) ∧
      ((∀ d, node ≠ .number d) → ∀ more, parseWithLength num (doc ++ more) = .ok (node, n)) ∧
      (Within (NumberBack num) room node →
        parseWithLength num (printValue num node) =
            .ok (clip node, (printValue num node).length) ∧
          printValue num (clip node) = printValue num node) := by
  refine ⟨?_, fun hKind more => parseWithLength_append h hKind more, fun hNumbers => ?_⟩
  · obtain ⟨rest, hRead, rfl⟩ := parseWithLength_value h
    exact ⟨parseValue_within hRead, Nat.sub_le _ _⟩
  · obtain ⟨rest, hRead, rfl⟩ := parseWithLength_value h
    have hTree := (parseValue_within hRead).with hNumbers
    exact ⟨parseWithLength_printValue hTree, printValue_clip hNumbers⟩

/-- A second record behind the first is not looked at, and the printed tree is accepted. -/
theorem parseWithLength_accepted_sample :
    parseWithLength decimalNum (printValue decimalNum sampleTree ++ ascii "\x7b\"b\"") =
        .ok (clip sampleTree, (printValue decimalNum sampleTree).length) ∧
      parseWithLength decimalNum (printValue decimalNum (clip sampleTree)) =
        .ok (clip (clip sampleTree), (printValue decimalNum (clip sampleTree)).length) := by
  have hTree := parseWithLength_printValue (sampleTree_within 62)
  obtain ⟨-, hMore, hBack⟩ := parseWithLength_accepted hTree
  exact ⟨hMore (fun d h => by cases h) _, (hBack (sampleTree_within 0).clip).1⟩

end Mua.Cjson
