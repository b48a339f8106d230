import LambdaMoo.Prepositions
import LambdaMoo.Matching

/-!
# Commands

`parse_command` takes a line apart into a verb, the words after it and the
texts before and after a preposition. The verb is passed over once to find
where the rest of the line begins and once more with the words; both readings
end at the same place.
-/

set_option autoImplicit false

namespace LambdaMoo.Database
open LambdaMoo.Words

structure ParsedCommand where
  verb : Str
  argstr : Str
  args : List Str
  dobjstr : Str
  dobj : ℤ
  prepstr : Str
  prep : ℤ
  iobjstr : Str
  iobj : ℤ
  deriving DecidableEq, Repr

def buildString : List Str → Str
  | [] => []
  | a::as => as.foldl (fun str w => str ++ [32] ++ w) a

def parseIntoWordlist (command : Str) : Result (List Str) := do
  return (← parseIntoWords command).argv

/-- The loop that passes over the verb. -/
def skipVerb : Bool → Str → Str
  | _, [] => []
  | q, c::s =>
    if q = false ∧ c = 32 then c::s
    else if c = 34 then skipVerb (!q) s
    else if c = 92 then
      match s with
      | [] => []
      | _::s => skipVerb q s
    else skipVerb q s

/-- The verb that a first character stands for. -/
def special (c : Byte) : Option Str :=
  if c = 34 then some (ascii "say")
  else if c = 58 then some (ascii "emote")
  else if c = 59 then some (ascii "eval")
  else none

/-- `buf` and `argstr`. -/
def commandText (command : Str) : Str×Str :=
  match dropSpaces command with
  | [] => ([], [])
  | c::s =>
    match special c with
    | some verb => (verb ++ [32] ++ s, s)
    | none => (c::s, dropSpaces (skipVerb false (c::s)))

/-- The preposition among the words, with the numbers of its first and last word in `argv`. -/
def commandPrep (argv : List Str) : ℤ×ℕ×ℕ :=
  let argc := argv.length
  if 1 < argc then
    match dbFindPrep argv.tail with
    | none => (PREP_NONE, argc, argc)
    | some f => (f.prep, f.first+1, f.last+1)
  else (PREP_NONE, argc, argc)

section Assemble
variable (db : Db) (user : ℤ) (argv : List Str)

/-- `prepstr`, `iobjstr` and `iobj`. -/
def commandIobj (prep : ℤ) (pstart pend : ℕ) : Result (Str×Str×ℤ) :=
  if prep ≠ PREP_NONE then do
    let prepstr := buildString ((argv.drop pstart).take (pend-pstart+1))
    let iobjstr := buildString ((argv.drop (pend+1)).take (argv.length-(pend+1)))
    return (prepstr, iobjstr, ← db.matchObject user (cstr iobjstr))
  else .ok ([], [], nothing)

/-- `dobjstr` and `dobj`. -/
def commandDobj (dlen : ℕ) : Result (Str×ℤ) :=
  if dlen = 0 then .ok ([], nothing)
  else do
    let dobjstr := buildString ((argv.drop 1).take dlen)
    return (dobjstr, ← db.matchObject user (cstr dobjstr))

def commandOfWords (argstr : Str) : Result (Option ParsedCommand) :=
  match argv with
  | [] => .ok none
  | verb::args => do
    let (prep, pstart, pend) := commandPrep argv
    let i ← commandIobj db user argv prep pstart pend
    let d ← commandDobj db user argv (pstart-1)
    return some ⟨verb, argstr, args, d.1, d.2, i.1, prep, i.2.1, i.2.2⟩

def parseCommand (command : Str) : Result (Option ParsedCommand) := do
  let (buf, argstr) := commandText command
  commandOfWords db user (← parseIntoWords buf).argv argstr

end Assemble

theorem foldl_join (a : Str) (as : List Str) :
    as.foldl (fun str w => str ++ [32] ++ w) a = a ++ as.flatMap ([32] ++ ·) := by
  induction as generalizing a with
  | nil => rw [List.foldl_nil, List.flatMap_nil, List.append_nil]
  | cons w as ih => rw [List.foldl_cons, ih, List.flatMap_cons, List.append_assoc, List.append_assoc,
      List.append_assoc]

theorem intercalate_join (a : Str) (as : List Str) :
    [32].intercalate (a::as) = a ++ as.flatMap ([32] ++ ·) := by
  induction as generalizing a with
  | nil => simp
  | cons w as ih => rw [List.intercalate_cons_cons, ih, List.flatMap_cons, List.append_assoc,
      List.append_assoc]

theorem buildString_eq (ws : List Str) : buildString ws = [32].intercalate ws := by
  cases ws with
  | nil => rfl
  | cons a as => rw [buildString, foldl_join, intercalate_join]

/-- The two scanners agree on where a word ends. -/
theorem skipVerb_eq (q : Bool) (s : Str) : skipVerb q s = (word q s).2 := by
  fun_induction word q s with
  | case1 => rfl
  | case2 q c s h => rw [skipVerb.eq_def]; exact if_pos h
  | case3 q s h ih =>
    rw [skipVerb.eq_def]
    exact (if_neg h).trans ih
  | case4 q h =>
    rw [skipVerb.eq_def]
    exact if_neg h
  | case5 q d s h _ ih =>
    rw [skipVerb.eq_def]
    exact (if_neg h).trans ih
  | case6 q c s h hq hb ih =>
    rw [skipVerb.eq_def]
    exact (if_neg h).trans ((if_neg hq).trans ((if_neg hb).trans ih))

/-- A line with a verb in the place of a first character that stands for one. -/
def expanded (line : Str) : Str :=
  match dropSpaces line with
  | [] => line
  | c::s =>
    match special c with
    | some verb => verb ++ [32] ++ s
    | none => line

theorem words_special {c : Byte} {verb : Str} (h : special c = some verb) (s : Str) :
    words (verb ++ [32] ++ s) = verb::words s := by
  have hw : ∀ v : Str, v ∈ [ascii "say", ascii "emote", ascii "eval"] →
      word false (v ++ [32] ++ s) = (v, 32::s) ∧ ∃ b t, v ++ [32] ++ s = b::t ∧ b ≠ 32 := by
    intro v hv
    simp only [List.mem_cons, List.not_mem_nil, or_false] at hv
    rcases hv with rfl | rfl | rfl
    · exact ⟨by simp [word.eq_def, ascii], 115, _, rfl, by decide⟩
    · exact ⟨by simp [word.eq_def, ascii], 101, _, rfl, by decide⟩
    · exact ⟨by simp [word.eq_def, ascii], 101, _, rfl, by decide⟩
  have hmem : verb ∈ [ascii "say", ascii "emote", ascii "eval"] := by
    rw [special] at h
    split at h
    · exact Option.some.inj h ▸ (by simp)
    · split at h
      · exact Option.some.inj h ▸ (by simp)
      · split at h
        · exact Option.some.inj h ▸ (by simp)
        · cases h
  obtain ⟨hword, b, t, hb, hne⟩ := hw verb hmem
  rw [words_cons (c := b) (t := t) (by rw [hb, dropSpaces_eq_self hne]), ← hb, hword]
  change verb::words (32::s) = verb::words s
  rw [← words_dropSpaces (32::s), dropSpaces, List.dropWhile_cons_of_pos (by simp), ← dropSpaces,
    words_dropSpaces]

/-- The words of a command are its verb and those of `argstr`. -/
theorem commandText_words (line : Str) : words (commandText line).1 = words (expanded line) ∧
    (words (expanded line) = [] ∨
      ∃ verb, words (expanded line) = verb::words (commandText line).2) := by
  rw [commandText, expanded]
  cases hd : dropSpaces line with
  | nil =>
    have := words_nil hd
    exact ⟨(words_nil rfl).trans this.symm, .inl this⟩
  | cons c s =>
    cases hc : special c with
    | some verb =>
      simp only [hc]
      exact ⟨trivial, .inr ⟨verb, words_special hc s⟩⟩
    | none =>
      simp only [hc]
      rw [← hd, words_dropSpaces]
      refine ⟨rfl, .inr ⟨(word false (c::s)).1, ?_⟩⟩
      rw [words_cons hd, words_dropSpaces, skipVerb_eq, hd]

theorem special_noNul {c : Byte} {verb : Str} (h : special c = some verb) : 0 ∉ verb := by
  rw [special] at h
  split at h
  · exact Option.some.inj h ▸ (by decide)
  · split at h
    · exact Option.some.inj h ▸ (by decide)
    · split at h
      · exact Option.some.inj h ▸ (by decide)
      · cases h

theorem commandText_noNul {line : Str} (h0 : 0 ∉ line) :
    0 ∉ (commandText line).1 ∧ 0 ∉ (commandText line).2 := by
  rw [commandText]
  cases hd : dropSpaces line with
  | nil => exact ⟨List.not_mem_nil, List.not_mem_nil⟩
  | cons c s =>
    have hcs : 0 ∉ c::s := by
      intro h
      rw [← hd] at h
      exact h0 ((List.dropWhile_sublist _).subset h)
    have hs : 0 ∉ s := fun h => hcs (List.mem_cons_of_mem c h)
    cases hc : special c with
    | some verb =>
      simp only [hc]
      exact ⟨by simp [special_noNul hc, hs], hs⟩
    | none =>
      simp only [hc]
      refine ⟨hcs, fun h => hcs ?_⟩
      have h := (List.dropWhile_sublist _).subset h
      rw [skipVerb_eq] at h
      exact word_mem (.inr h)

/-- Words without a NUL are C strings. -/
theorem cstrs_of_noNul {ws : List Str} (h : ∀ w ∈ ws, 0 ∉ w) : ∃ cs : List CStr, cs.map CStr.str = ws := by
  induction ws with
  | nil => exact ⟨[], rfl⟩
  | cons w ws ih =>
    obtain ⟨cs, hcs⟩ := ih fun v hv => h v (List.mem_cons_of_mem w hv)
    exact ⟨⟨w, h w List.mem_cons_self⟩::cs, by rw [List.map_cons, hcs]⟩

theorem dbFindPrep_bound {args : List Str} (h : ∀ w ∈ args, 0 ∉ w) {f : PrepFound}
    (hf : dbFindPrep args = some f) : f.first ≤ f.last ∧ f.last < args.length := by
  obtain ⟨cs, rfl⟩ := cstrs_of_noNul h
  obtain ⟨e, he, -, hlast, -⟩ := dbFindPrep_some cs hf
  obtain ⟨hmem, hpre, -⟩ := firstPhrase_some he
  have hne := List.length_pos_iff.mpr (phrases_lower e hmem).2.2
  have hle := hpre.length_le
  rw [List.length_drop, List.length_map] at hle
  rw [List.length_map]
  omega

/-- The words before a preposition, its own and those after it. -/
theorem split_at_prep {args : List Str} {first last : ℕ} (h : first ≤ last) :
    args.take first ++ (args.drop first).take (last-first+1) ++ args.drop (last+1) = args := by
  rw [List.append_assoc, show args.drop (last+1) = (args.drop first).drop (last-first+1) by
    rw [List.drop_drop]; congr 1; omega, List.take_append_drop, List.take_append_drop]

/-- The words of a command, dealt out to the objects and the preposition. -/
structure Consistent (line : Str) (pc : ParsedCommand) : Prop where
  wordlist : parseIntoWordlist pc.argstr = .ok pc.args
  line : words (expanded line) = pc.verb::pc.args
  dealt : ∃ dobj prep iobj, pc.args = dobj ++ prep ++ iobj ∧ pc.dobjstr = [32].intercalate dobj ∧
    pc.prepstr = [32].intercalate prep ∧ pc.iobjstr = [32].intercalate iobj

theorem parseIntoWordlist_eq {s : Str} (h0 : 0 ∉ s) : parseIntoWordlist s = .ok (words s) := by
  obtain ⟨r, hr, hw, -⟩ := parseIntoWords_eq h0
  rw [parseIntoWordlist, hr]
  exact congrArg Except.ok hw

theorem commandPrep_cases {verb : Str} {args : List Str} (h : ∀ w ∈ args, 0 ∉ w) :
    commandPrep (verb::args) = (PREP_NONE, args.length+1, args.length+1) ∨
      ∃ f : PrepFound, commandPrep (verb::args) = ((f.prep : ℤ), f.first+1, f.last+1) ∧
        f.first ≤ f.last ∧ f.last < args.length := by
  rw [commandPrep, List.length_cons, List.tail_cons]
  split
  · cases hf : dbFindPrep args with
    | none => exact .inl rfl
    | some f => exact .inr ⟨f, rfl, dbFindPrep_bound h hf⟩
  · exact .inl rfl

section Dealt
variable {db : Db} {user : ℤ} {verb : Str} {args : List Str}

theorem commandDobj_eq {n : ℕ} {r : Str×ℤ} (h : commandDobj db user (verb::args) n = .ok r) :
    r.1 = [32].intercalate (args.take n) := by
  rw [commandDobj] at h
  by_cases hn : n = 0
  · rw [if_pos hn] at h
    rw [← Except.ok.inj h, hn]
    rfl
  · rw [if_neg hn] at h
    obtain ⟨o, -, h⟩ := bind_ok.mp h
    rw [← pure_ok.mp h]
    exact buildString_eq _

theorem commandIobj_eq {f : PrepFound} {r : Str×Str×ℤ}
    (h : commandIobj db user (verb::args) f.prep (f.first+1) (f.last+1) = .ok r) :
    r.1 = [32].intercalate ((args.drop f.first).take (f.last-f.first+1)) ∧
      r.2.1 = [32].intercalate (args.drop (f.last+1)) := by
  have hp : (f.prep : ℤ) ≠ PREP_NONE := by
    rw [PREP_NONE]
    omega
  rw [commandIobj, if_pos hp] at h
  obtain ⟨o, -, h⟩ := bind_ok.mp h
  have hrest : (args.drop (f.last+1)).take ((verb::args).length-(f.last+1+1)) =
      args.drop (f.last+1) := by
    apply List.take_of_length_le
    rw [List.length_drop, List.length_cons, Nat.add_sub_add_right]
  rw [← pure_ok.mp h, buildString_eq, buildString_eq, List.drop_succ_cons, List.drop_succ_cons,
    Nat.add_sub_add_right, hrest]
  exact ⟨rfl, rfl⟩

theorem commandOfWords_dealt (hargs : ∀ w ∈ args, 0 ∉ w) {argstr : Str} {pc : ParsedCommand}
    (h : commandOfWords db user (verb::args) argstr = .ok (some pc)) :
    pc.verb = verb ∧ pc.args = args ∧ pc.argstr = argstr ∧ ∃ dobj prep iobj,
      args = dobj ++ prep ++ iobj ∧ pc.dobjstr = [32].intercalate dobj ∧
      pc.prepstr = [32].intercalate prep ∧ pc.iobjstr = [32].intercalate iobj := by
  rw [commandOfWords] at h
  rcases commandPrep_cases hargs with hp | ⟨f, hp, hle, hlt⟩
  · rw [hp] at h
    obtain ⟨i, hi, h⟩ := bind_ok.mp h
    obtain ⟨d, hd, h⟩ := bind_ok.mp h
    have hi : ([], [], nothing) = i := Except.ok.inj hi
    rw [← Option.some.inj (pure_ok.mp h), ← hi]
    refine ⟨rfl, rfl, rfl, args, [], [], by simp, ?_, rfl, rfl⟩
    rw [commandDobj_eq hd, Nat.add_sub_cancel, List.take_length]
  · rw [hp] at h
    obtain ⟨i, hi, h⟩ := bind_ok.mp h
    obtain ⟨d, hd, h⟩ := bind_ok.mp h
    obtain ⟨hprep, hiobj⟩ := commandIobj_eq hi
    rw [← Option.some.inj (pure_ok.mp h)]
    exact ⟨rfl, rfl, rfl, _, _, _, (split_at_prep hle).symm, commandDobj_eq hd, hprep, hiobj⟩

end Dealt

theorem parseCommand_dealt {db : Db} {line : Str} (h0 : 0 ∉ line) {user : ℤ}
    {pc : ParsedCommand} (h : parseCommand db user line = .ok (some pc)) : Consistent line pc := by
  obtain ⟨hb0, ha0⟩ := commandText_noNul h0
  obtain ⟨hbuf, hwords⟩ := commandText_words line
  obtain ⟨r, hr, hw, -⟩ := parseIntoWords_eq hb0
  rw [parseCommand] at h
  obtain ⟨r', hr', h⟩ := bind_ok.mp h
  obtain rfl := Except.ok.inj (hr.symm.trans hr')
  rw [hw, hbuf] at h
  rcases hwords with hnil | ⟨verb, hcons⟩
  · rw [hnil] at h
    cases h
  · rw [hcons] at h
    have hargs : ∀ w ∈ words (commandText line).2, 0 ∉ w := fun w hw h => ha0 (words_mem hw 0 h)
    obtain ⟨hverb, hargs, hstr, hdealt⟩ := commandOfWords_dealt hargs h
    refine ⟨?_, ?_, ?_⟩
    · rw [hstr, hargs]
      exact parseIntoWordlist_eq ha0
    · rw [hverb, hargs]
      exact hcons
    · rw [hargs]
      exact hdealt

section Total
variable {db : Db} (h : db.Sound) (user : ℤ)
include h

theorem matchObject_ok (name : CStr) : ∃ r, db.matchObject user name = .ok r := by
  rw [Db.matchObject]
  cases name.str with
  | nil => exact ⟨nothing, rfl⟩
  | cons c s =>
    dsimp only
    split
    · split
      · exact ⟨_, rfl⟩
      · exact ⟨_, rfl⟩
    · by_cases hv : db.valid user = true
      · rw [hv]
        simp only [Bool.not_true, Bool.false_eq_true, if_false]
        rw [Db.valid, Db.find_eq] at hv
        obtain ⟨o, ho⟩ := Option.isSome_iff_exists.mp hv
        split
        · exact ⟨user, rfl⟩
        · split
          · exact ⟨o.place.up, bind_ok.mpr ⟨o, Db.object_ok ho, rfl⟩⟩
          · exact matchContents_ok name h user
      · rw [Bool.not_eq_true] at hv
        rw [hv]
        exact ⟨failedMatch, rfl⟩

theorem parseCommand_ok {line : Str} (h0 : 0 ∉ line) : ∃ r, parseCommand db user line = .ok r := by
  obtain ⟨r, hr, -⟩ := parseIntoWords_eq (commandText_noNul h0).1
  suffices ∀ argv, ∃ r, commandOfWords db user argv (commandText line).2 = .ok r by
    obtain ⟨pc, hpc⟩ := this r.argv
    exact ⟨pc, bind_ok.mpr ⟨r, hr, hpc⟩⟩
  intro argv
  cases argv with
  | nil => exact ⟨none, rfl⟩
  | cons verb args =>
    obtain ⟨i, hi⟩ : ∃ i, commandIobj db user (verb::args) (commandPrep (verb::args)).1
        (commandPrep (verb::args)).2.1 (commandPrep (verb::args)).2.2 = .ok i := by
      rw [commandIobj]
      split
      · obtain ⟨o, ho⟩ := matchObject_ok h user (cstr (buildString (((verb::args).drop
          ((commandPrep (verb::args)).2.2+1)).take
            ((verb::args).length-((commandPrep (verb::args)).2.2+1)))))
        exact ⟨_, bind_ok.mpr ⟨o, ho, rfl⟩⟩
      · exact ⟨_, rfl⟩
    obtain ⟨d, hd⟩ : ∃ d, commandDobj db user (verb::args) ((commandPrep (verb::args)).2.1-1) =
        .ok d := by
      rw [commandDobj]
      split
      · exact ⟨_, rfl⟩
      · obtain ⟨o, ho⟩ := matchObject_ok h user (cstr (buildString (((verb::args).drop 1).take
          ((commandPrep (verb::args)).2.1-1))))
        exact ⟨_, bind_ok.mpr ⟨o, ho, rfl⟩⟩
    rw [commandOfWords]
    exact ⟨_, bind_ok.mpr ⟨i, hi, bind_ok.mpr ⟨d, hd, rfl⟩⟩⟩

end Total

/-- What a command is taken apart into belongs together, and the words of any text are written in
its own place. -/
theorem parseCommand_consistent (db : Db) (user : ℤ) (line : CStr) :
    (∀ pc, parseCommand db user line.str = .ok (some pc) → Consistent line.str pc) ∧
    (db.Sound → ∃ r, parseCommand db user line.str = .ok r) ∧
    ∃ r, parseIntoWords line.str = .ok r ∧ r.argv = words line.str ∧
      (∀ e ∈ r.scan.writes, e.1 ≤ e.2) ∧ (∀ p ∈ r.words, Terminated r.scan.buf p) ∧
      r.scan.buf.length = line.str.length+1 := by
  refine ⟨fun pc hpc => ?_, fun hs => ?_, ?_⟩
  · exact parseCommand_dealt line.noNul hpc
  · exact parseCommand_ok hs user line.noNul
  · exact parseIntoWords_eq line.noNul

theorem put_consistent : Consistent (ascii "put \"la mp\" in front  of la")
    ⟨ascii "put", ascii "\"la mp\" in front  of la", ["la mp", "in", "front", "of", "la"].map ascii,
      ascii "la mp", failedMatch, ascii "in front of", 2, ascii "la", 1⟩ :=
  (parseCommand_consistent (pocket lamp) 0
    ⟨ascii "put \"la mp\" in front  of la", by decide⟩).1 _ (by decide +kernel)

end LambdaMoo.Database
