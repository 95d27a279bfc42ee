import ScriptLang.Proofs.Linked.Source
import ScriptLang.Proofs.Linked.Walk

/-!
# Files spliced together

A link puts the statements of files together after it has parsed each of them. It might as well put
the texts together, each on lines of its own, and parse them once: the grammar derives the
statements of one text and then those of the next, whatever the statements before a line end with.
Import statements can be left out of the text before or of the tree after.

Results:
* `isParsed_joined`: texts on lines of their own are the statements of all of them;
* `isParsed_own`: a text without its import statements is the program without them;
* `splice_is_concatenation`: a linked program is what the texts of its files are, one after another.
-/
namespace ScriptLang.Linked

open Grammar

/-! ## Import statements -/

/-- The tokens of some statements, and those that are left of them without the import statements. -/
inductive WithoutImports : List Token → List Token → Prop
  | done : WithoutImports [] []
  | keep {node : Node} {ts us vs : List Token} : Derives (.statement node) ts →
      node.isImport = false → WithoutImports us vs → WithoutImports (ts ++ us) (ts ++ vs)
  | leaveOut {node : Node} {ts us vs : List Token} : Derives (.statement node) ts →
      node.isImport = true → WithoutImports us vs → WithoutImports (ts ++ us) vs

variable {p : Program} {source other : String} {ts us : List Token}

theorem own_cons (node : Node) (nodes : List Node) :
    own (node :: nodes) = if node.isImport then own nodes else node :: own nodes := by
  unfold own
  cases h : node.isImport <;> simp [h]

theorem WithoutImports.derives (h : WithoutImports ts us) :
    ∃ nodes, Derives (.statements nodes) ts ∧ Derives (.statements (own nodes)) us := by
  induction h with
  | done => exact ⟨[], .noStatements, .noStatements⟩
  | keep hnode hkept _ ih =>
    obtain ⟨nodes, hts, hus⟩ := ih
    refine ⟨_ :: nodes, .moreStatements hnode hts, ?_⟩
    rw [own_cons, hkept]
    exact .moreStatements hnode hus
  | leaveOut hnode himport _ ih =>
    obtain ⟨nodes, hts, hus⟩ := ih
    refine ⟨_ :: nodes, .moreStatements hnode hts, ?_⟩
    rwa [own_cons, himport]

theorem WithoutImports.sublist (h : WithoutImports ts us) : us.Sublist ts := by
  induction h with
  | done => exact .slnil
  | keep _ _ _ ih => exact (List.Sublist.refl _).append ih
  | leaveOut _ _ _ ih => exact ih.trans (List.sublist_append_right _ _)

theorem exists_withoutImports {nodes : List Node} (h : Derives (.statements nodes) ts) :
    ∃ us, WithoutImports ts us := by
  induction nodes generalizing ts with
  | nil =>
    cases h
    exact ⟨[], .done⟩
  | cons node nodes ih =>
    cases h with
    | moreStatements hnode hnodes =>
      obtain ⟨us, hus⟩ := ih hnodes
      cases himport : node.isImport with
      | false => exact ⟨_, .keep hnode himport hus⟩
      | true => exact ⟨us, .leaveOut hnode himport hus⟩

/-- The words of the second text are those of the first without its import statements. -/
def LeavesOutImports (source other : String) : Prop :=
  ∃ s t us, TokenStream.ofSource source = .ok s ∧ TokenStream.ofSource other = .ok t ∧
    WithoutImports s.tokens us ∧ SameWords us t.tokens

/-- A text without its import statements is the program without them. -/
theorem isParsed_own (h : p.IsParsed source) (hout : LeavesOutImports source other) :
    Program.IsParsed ⟨own p.statements⟩ other := by
  obtain ⟨s, hs, hp⟩ := derives_of_isParsed h
  obtain ⟨s', t, us, hs', ht, hus, hwords⟩ := hout
  cases hs.symm.trans hs'
  have hscanned := (scanned_ofSource hs).1
  obtain ⟨nodes, hnodes, hown⟩ := hus.derives
  obtain rfl := statements_unique hscanned hp hnodes
  exact isParsed_of_derives ht hwords (fun t ht => hscanned t (hus.sublist.mem ht)) hown

theorem exists_leavesOutImports (h : p.IsParsed source) :
    ∃ other, LeavesOutImports source other := by
  obtain ⟨s, hs, hp⟩ := derives_of_isParsed h
  obtain ⟨us, hus⟩ := exists_withoutImports hp
  have hlexical : ∀ w ∈ us.map Token.word, w.IsLexical := by
    intro w hw
    obtain ⟨t, ht, rfl⟩ := List.mem_map.mp hw
    exact Word.lexed_iff.mp ((scanned_ofSource hs).1 t (hus.sublist.mem ht))
  obtain ⟨tokens, final, hscan, hwords⟩ := Word.scan_line hlexical .start
  exact ⟨_, s, ⟨tokens, ⟨.endOfInput, "EOF", final⟩⟩, us, hs,
    by rw [TokenStream.ofSource, hscan], hus, hwords.symm⟩

/-! ## Texts of files -/

/-- Texts on lines of their own are the statements of all of them. -/
theorem isParsed_joined {text : String → String} {source : String → List Node} {files : List String}
    (h : ∀ f ∈ files, Program.IsParsed ⟨source f⟩ (text f)) :
    Program.IsParsed ⟨files.flatMap source⟩ ("\n".intercalate (files.map text)) := by
  induction files with
  | nil => exact ⟨_, rfl, rfl⟩
  | cons f files ih =>
    obtain ⟨hf, hfiles⟩ := List.forall_mem_cons.mp h
    cases files with
    | nil => simpa using hf
    | cons g files =>
      rw [List.map_cons, List.map_cons, String.intercalate_cons_cons]
      exact isParsed_join hf (ih hfiles)

theorem isParsed_of_parseRead {path : String} {r : ReadResult} (h : parseRead path r = .ok p) :
    ∃ text, r = .text text ∧ p.IsParsed text := by
  obtain ⟨text, rfl⟩ := text_of_parseRead h
  exact ⟨text, rfl, isParsed_of_parseText h⟩

/-- Two texts that are programs are, one behind the other on a new line, the statements of the first
and then those of the second, and without their import statements the program without them. So the
linked program is what the texts of its files are in the order of the link, one behind the other. -/
theorem splice_is_concatenation :
    (∀ (p q : Program) (source other : String), p.IsParsed source → q.IsParsed other →
      Program.IsParsed ⟨p.statements ++ q.statements⟩ (source ++ "\n" ++ other)) ∧
    (∀ (p : Program) (source : String), p.IsParsed source →
      (∃ other, LeavesOutImports source other) ∧
        ∀ other, LeavesOutImports source other → Program.IsParsed ⟨own p.statements⟩ other) ∧
    ∀ (σ : Type) (store : Store (StateM σ)) (path : String) (s s' : σ) (linked : Linked),
      link store path s = (.ok linked, s') →
      ∃ (log : List (String × ReadResult)) (text : String → String) (p : Program),
        store.Answers s log s' ∧ (log.map Prod.fst).Nodup ∧
        (∀ f ∈ linked.files, (f, .text (text f)) ∈ log) ∧
        p.IsParsed ("\n".intercalate (linked.files.map text)) ∧
        linked.program.statements = own p.statements ∧
        ∀ other, LeavesOutImports ("\n".intercalate (linked.files.map text)) other →
          linked.program.IsParsed other := by
  refine ⟨fun p q source other => isParsed_join, fun p source hp =>
    ⟨exists_leavesOutImports hp, fun other => isParsed_own hp⟩, ?_⟩
  intro σ store path s s' linked h
  obtain ⟨log, p', hanswers, hnodup, hreads, hparsed, hwalk⟩ := linkWith_run h
  have hagrees := agrees_sourceOf hnodup hparsed
  obtain ⟨body, hg, rfl⟩ := hwalk _ hagrees
  obtain ⟨done, v⟩ := gathers_visit hg
  have hfiles : p'.files = done := by simpa using v.files
  have hlog : (log.map Prod.fst).Perm (done ++ [entryOf path]) := hreads.trans v.visited
  have hread : ∀ f, ∃ text, f ∈ p'.files ++ [entryOf path] →
      (f, .text text) ∈ log ∧ Program.IsParsed ⟨sourceOf log f⟩ text := by
    intro f
    by_cases hf : f ∈ p'.files ++ [entryOf path]
    · rw [hfiles] at hf
      obtain ⟨⟨_, r⟩, he, rfl⟩ := List.mem_map.mp (hlog.mem_iff.mpr hf)
      obtain ⟨text, rfl, hp⟩ := isParsed_of_parseRead (hagrees _ he)
      exact ⟨text, fun _ => ⟨he, hp⟩⟩
    · exact ⟨"", fun hmem => absurd hmem hf⟩
  choose text htext using hread
  have hjoined := isParsed_joined fun f hf => (htext f hf).2
  have hstatements : body ++ own (sourceOf log (entryOf path)) =
      own ((p'.files ++ [entryOf path]).flatMap (sourceOf log)) := by
    rw [hfiles, v.body]
    simp [own, List.filter_flatMap]
  refine ⟨log, text, _, hanswers, hnodup, fun f hf => (htext f hf).1, hjoined, hstatements, ?_⟩
  intro other hout
  have hown := isParsed_own hjoined hout
  rwa [← hstatements] at hown

/-- A choice without another branch, and a comment that the text ends with. -/
def openEnded : String := "import \"b\";if(x)\x7by;\x7d//end"

/-- A text that begins with a name. -/
def following : String := "z=1/2;"

/-- A file that imports another one. -/
def pair : MemoryFiles := MemoryFiles.ofTexts [("/main", openEnded), ("/b", following)]

theorem pair_spliced :
    (∃ p q : Program, p.IsParsed openEnded ∧ q.IsParsed following ∧
      Program.IsParsed ⟨p.statements ++ q.statements⟩ (openEnded ++ "\n" ++ following) ∧
      ∃ other, LeavesOutImports openEnded other ∧ Program.IsParsed ⟨own p.statements⟩ other) ∧
    ∃ linked text p, link MemoryFiles.store "main" pair = (.ok linked, pair) ∧
      Program.IsParsed p ("\n".intercalate (linked.files.map text)) ∧
      linked.program.statements = own p.statements := by
  obtain ⟨hjoin, hown, hlink⟩ := splice_is_concatenation
  let half : Node := .expression (.binary (.identifier (.str "z")) (.str "=")
    (.binary (.literal .number (.int 1)) (.str "/") (.literal .number (.int 2))))
  let choice : Node := .branch (.identifier (.str "x")) [.expression (.identifier (.str "y"))] none
  refine ⟨?_, ?_⟩
  · have hmain : parseText "/main" openEnded = .ok ⟨[.importFile "b", choice]⟩ := by decide +kernel
    have hb : parseText "/b" following = .ok ⟨[half]⟩ := by decide +kernel
    have hp := isParsed_of_parseText hmain
    have hq := isParsed_of_parseText hb
    obtain ⟨⟨other, hout⟩, hother⟩ := hown _ _ hp
    exact ⟨_, _, hp, hq, hjoin _ _ _ _ hp hq, other, hout, hother other hout⟩
  · have h : link MemoryFiles.store "main" pair =
        (.ok ⟨⟨[half, choice]⟩, ["/b", "/main"]⟩, pair) :=
      ok_of_toOption (by decide +kernel) (by decide +kernel)
    obtain ⟨log, text, p, -, -, -, hp, hlinked, -⟩ := hlink _ _ _ _ _ _ h
    exact ⟨_, text, p, h, hp, hlinked⟩

end ScriptLang.Linked
