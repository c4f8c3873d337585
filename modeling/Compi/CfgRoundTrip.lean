import Compi.CfgFiles
import Mathlib.Data.List.Basic
import Mathlib.Data.List.Nodup

/-!
# Reading the graph back

The neighbours of a statement are its successors and the first statements of
the functions that it calls, as far as they are in its file or can be called
from another one.
-/

namespace Compi

open TextStream

namespace CfgFiles

/-- Whether a function can be called from other files. -/
def Function.isExported (f : Function) : Bool :=
  !f.svar.isStatic

/-- The statements of a file. -/
def nodesOf (file : List Function) : List Node :=
  file.flatMap Function.nodes

/--
The first statement of a function that is called in a file: a function of the
file, or one that another file exports.
-/
def target
    (files : List (List Function))
    (file : List Function)
    (g : FuncVar) : Option Int :=
  match file.find? fun f => decide (f.svar.vid = g.vid) with
  | some f => some f.first.sid
  | none =>
      ((files.filter fun other => decide (other ≠ file)).flatten.find?
        fun f => f.isExported && decide (f.svar.vname = g.vname)).map
          fun f => f.first.sid

/--
Files with unique statement ids, whose successors are ids and whose functions
have identifiers as names.  Exported functions have different names, and in a
file a name stands for one variable.
-/
structure Readable (files : List (List Function)) : Prop where
  distinct : ((files.flatMap nodesOf).map Node.sid).Nodup
  sids : ∀ s ∈ files.flatMap nodesOf, IsNode s.sid
  succs : ∀ s ∈ files.flatMap nodesOf, ∀ n ∈ s.succs, 0 ≤ n ∧ n < 2 ^ 31
  names : ∀ f ∈ files.flatten, isIdentifier f.svar.vname = true
  callees :
    ∀ s ∈ files.flatMap nodesOf, ∀ g ∈ s.calls, isIdentifier g.vname = true
  exported :
    ((files.flatten.filter Function.isExported).map
      fun f => f.svar.vname).Nodup
  oneVariable :
    ∀ file ∈ files, ∀ f ∈ file, ∀ s ∈ nodesOf file, ∀ g ∈ s.calls,
      f.svar.vname = g.vname → f.svar.vid = g.vid

section Lookup

theorem lookup_eq_some_iff
    {entries : List (List Char × Int)}
    (nodup : (entries.map Prod.fst).Nodup)
    {name : List Char}
    {sid : Int} :
    entries.lookup name = some sid ↔ (name, sid) ∈ entries := by
  constructor
  · intro found
    obtain ⟨before, after, rfl, _⟩ := List.lookup_eq_some_iff.mp found
    exact List.mem_append_right before List.mem_cons_self
  · intro member
    obtain ⟨before, after, rfl⟩ := List.append_of_mem member
    refine List.lookup_eq_some_iff.mpr ⟨before, after, rfl, ?_⟩
    intro entry isBefore
    rw [List.map_append, List.map_cons] at nodup
    have apart := (List.nodup_append.mp nodup).2.2
    have different :=
      apart entry.1 (List.mem_map_of_mem isBefore) name List.mem_cons_self
    exact bne_iff_ne.mpr different.symm

end Lookup

variable {files : List (List Function)}

/-- The entries of the file `cfg_func_map`. -/
def exportedEntries (files : List (List Function)) : List (List Char × Int) :=
  (files.flatten.filter Function.isExported).map
    fun f => (f.svar.vname, f.first.sid)

/-- The lines of the file `cfg`. -/
def linesOf (files : List (List Function)) : List Line :=
  files.flatMap fun file =>
    (nodesOf file).map fun s =>
      (s.sid, wordsOf (buildFirstStmtIdMap file) s)

theorem writeFirstStmtIdMap_eq (file : List Function) :
    writeFirstStmtIdMap file =
      ((file.filter Function.isExported).map
        fun f => (f.svar.vname, f.first.sid)).flatMap entryText := by
  induction file with
  | nil =>
      rfl
  | cons f rest inductionHypothesis =>
      have unfolded :
          writeFirstStmtIdMap (f :: rest) =
            (if f.svar.isStatic then
                []
              else
                f.svar.vname ++ ' ' :: (decimal f.first.sid ++ ['\n'])) ++
              writeFirstStmtIdMap rest :=
        rfl
      rw [unfolded, inductionHypothesis]
      cases static : f.svar.isStatic with
      | true =>
          have notExported : ¬f.isExported = true := by
            simp [Function.isExported, static]
          rw [List.filter_cons_of_neg notExported, if_pos rfl, List.nil_append]
      | false =>
          have exported : f.isExported = true := by
            simp [Function.isExported, static]
          rw [List.filter_cons_of_pos exported, if_neg Bool.false_ne_true]
          rfl

theorem cfgFuncMap_eq (files : List (List Function)) :
    cfgFuncMap files = (exportedEntries files).flatMap entryText := by
  induction files with
  | nil =>
      rfl
  | cons file rest inductionHypothesis =>
      rw [cfgFuncMap, List.flatMap_cons, ← cfgFuncMap, inductionHypothesis,
        writeFirstStmtIdMap_eq, exportedEntries, exportedEntries,
        List.flatten_cons, List.filter_append, List.map_append,
        List.flatMap_append]

theorem cfg_eq (files : List (List Function)) :
    cfg files = (linesOf files).flatMap fun line => line.text ++ ['\n'] := by
  rw [cfg, linesOf, List.flatMap_assoc]
  refine List.flatMap_congr fun file _ => ?_
  rw [List.flatMap_map]
  rfl

section Resolution

/-- A called function that the file has is written as its first statement. -/
theorem writeCfgCall_eq
    (file : List Function)
    (g : FuncVar) :
    writeCfgCall (buildFirstStmtIdMap file) g =
      match file.find? fun f => decide (f.svar.vid = g.vid) with
      | some f => .id f.first.sid
      | none => .name g.vname := by
  have found :
      (buildFirstStmtIdMap file).find?
          (fun entry => decide (entry.1.vid = g.vid)) =
        (file.find? fun f => decide (f.svar.vid = g.vid)).map
          fun f => (f.svar, f.first.sid) :=
    List.find?_map
  rw [writeCfgCall, found]
  cases file.find? fun f => decide (f.svar.vid = g.vid) with
  | none =>
      rfl
  | some f =>
      rfl

/-- A function found in the other files is exported under its name. -/
theorem exported_of_find
    {file : List Function}
    {name : List Char}
    {f : Function}
    (found :
      (files.filter fun other => decide (other ≠ file)).flatten.find?
          (fun f => f.isExported && decide (f.svar.vname = name)) =
        some f) :
    f ∈ files.flatten ∧ f.isExported = true ∧ f.svar.vname = name := by
  obtain ⟨other, isOther, inOther⟩ :=
    List.mem_flatten.mp (List.mem_of_find?_eq_some found)
  have isFile := (List.mem_filter.mp isOther).1
  have accepted := List.find?_some found
  obtain ⟨isExported, named⟩ := Bool.and_eq_true_iff.mp accepted
  exact
    ⟨List.mem_flatten.mpr ⟨other, isFile, inOther⟩, isExported,
      of_decide_eq_true named⟩

variable (readable : Readable files)

include readable

/-- An exported name stands for the first statement of its function. -/
theorem lookup_exported_iff
    {name : List Char}
    {sid : Int} :
    (exportedEntries files).reverse.lookup name = some sid ↔
      ∃ f ∈ files.flatten,
        f.isExported = true ∧ f.svar.vname = name ∧ f.first.sid = sid := by
  have nodup :
      ((exportedEntries files).reverse.map Prod.fst).Nodup := by
    rw [List.map_reverse, List.nodup_reverse, exportedEntries, List.map_map]
    exact readable.exported
  rw [lookup_eq_some_iff nodup, List.mem_reverse, exportedEntries,
    List.mem_map]
  constructor
  · rintro ⟨f, member, same⟩
    obtain ⟨isFunction, isExported⟩ := List.mem_filter.mp member
    obtain ⟨rfl, rfl⟩ := Prod.mk.inj same
    exact ⟨f, isFunction, isExported, rfl, rfl⟩
  · rintro ⟨f, isFunction, isExported, rfl, rfl⟩
    exact ⟨f, List.mem_filter.mpr ⟨isFunction, isExported⟩, rfl⟩

/-- Exported functions with one name are the same. -/
theorem eq_of_vname
    {f g : Function}
    (isFunction : f ∈ files.flatten)
    (isExported : f.isExported = true)
    (isOther : g ∈ files.flatten)
    (otherExported : g.isExported = true)
    (same : f.svar.vname = g.svar.vname) :
    f = g :=
  List.inj_on_of_nodup_map readable.exported
    (List.mem_filter.mpr ⟨isFunction, isExported⟩)
    (List.mem_filter.mpr ⟨isOther, otherExported⟩) same

/-- What is written for a call is read as its target. -/
theorem resolve_writeCfgCall
    {file : List Function}
    (isFile : file ∈ files)
    {s : Node}
    (isNode : s ∈ nodesOf file)
    {g : FuncVar}
    (isCalled : g ∈ s.calls) :
    (writeCfgCall (buildFirstStmtIdMap file) g).resolve
        (exportedEntries files).reverse =
      target files file g := by
  rw [writeCfgCall_eq, target]
  cases inFile : file.find? fun f => decide (f.svar.vid = g.vid) with
  | some f =>
      rfl
  | none =>
      show (exportedEntries files).reverse.lookup g.vname = _
      refine Option.ext fun sid => ?_
      rw [lookup_exported_iff readable, Option.map_eq_some_iff]
      constructor
      · rintro ⟨f, isFunction, isExported, named, rfl⟩
        obtain ⟨other, isOther, inOther⟩ := List.mem_flatten.mp isFunction
        have different : other ≠ file := by
          rintro rfl
          have sameVid :=
            readable.oneVariable other isFile f inOther s isNode g isCalled
              named
          have notFound := List.find?_eq_none.mp inFile f inOther
          exact notFound (decide_eq_true sameVid)
        have isElsewhere :
            f ∈ (files.filter fun other => decide (other ≠ file)).flatten :=
          List.mem_flatten.mpr
            ⟨other,
              List.mem_filter.mpr ⟨isOther, decide_eq_true different⟩,
              inOther⟩
        have accepted :
            (f.isExported && decide (f.svar.vname = g.vname)) = true := by
          rw [isExported, decide_eq_true named]
          rfl
        have isSome :
            ((files.filter fun other => decide (other ≠ file)).flatten.find?
              fun f =>
                f.isExported && decide (f.svar.vname = g.vname)).isSome =
              true :=
          List.find?_isSome.mpr ⟨f, isElsewhere, accepted⟩
        obtain ⟨found, isFound⟩ := Option.isSome_iff_exists.mp isSome
        obtain ⟨foundFunction, foundExported, foundName⟩ :=
          exported_of_find isFound
        have same : found = f :=
          eq_of_vname readable foundFunction foundExported isFunction
            isExported (foundName.trans named.symm)
        exact ⟨found, isFound, by rw [same]⟩
      · rintro ⟨f, isFound, rfl⟩
        obtain ⟨isFunction, isExported, named⟩ := exported_of_find isFound
        exact ⟨f, isFunction, isExported, named, rfl⟩

/-- The words of a statement give its successors and its targets. -/
theorem edges_wordsOf
    {file : List Function}
    (isFile : file ∈ files)
    {s : Node}
    (isNode : s ∈ nodesOf file) :
    edges (exportedEntries files).reverse
        (wordsOf (buildFirstStmtIdMap file) s) =
      (s.succs ++ s.calls.filterMap (target files file)).map
        fun dst => (dst, 0) := by
  have succs :
      (s.succs.map Word.id).filterMap
          (Word.resolve (exportedEntries files).reverse) =
        s.succs := by
    rw [List.filterMap_map]
    exact List.filterMap_some
  have calls :
      (s.calls.map (writeCfgCall (buildFirstStmtIdMap file))).filterMap
          (Word.resolve (exportedEntries files).reverse) =
        s.calls.filterMap (target files file) := by
    rw [List.filterMap_map]
    exact
      List.filterMap_congr fun g isCalled =>
        resolve_writeCfgCall readable isFile isNode isCalled
  rw [edges, wordsOf, List.filterMap_append, succs, calls]

end Resolution

section Validity

variable (readable : Readable files)

include readable

theorem isNode_first
    {f : Function}
    (isFunction : f ∈ files.flatten) :
    IsNode f.first.sid := by
  obtain ⟨file, isFile, inFile⟩ := List.mem_flatten.mp isFunction
  refine readable.sids f.first (List.mem_flatMap.mpr ⟨file, isFile, ?_⟩)
  exact List.mem_flatMap.mpr ⟨f, inFile, List.mem_cons_self⟩

/-- What is written for a call is an id or an identifier. -/
theorem isValid_writeCfgCall
    {file : List Function}
    (isFile : file ∈ files)
    {s : Node}
    (isNode : s ∈ nodesOf file)
    {g : FuncVar}
    (isCalled : g ∈ s.calls) :
    (writeCfgCall (buildFirstStmtIdMap file) g).IsValid := by
  rw [writeCfgCall_eq]
  cases inFile : file.find? fun f => decide (f.svar.vid = g.vid) with
  | some f =>
      have isFunction : f ∈ files.flatten :=
        List.mem_flatten.mpr
          ⟨file, isFile, List.mem_of_find?_eq_some inFile⟩
      have isFirst := isNode_first readable isFunction
      exact ⟨isFirst.1, Int.lt_trans isFirst.2 (by decide)⟩
  | none =>
      exact
        readable.callees s (List.mem_flatMap.mpr ⟨file, isFile, isNode⟩) g
          isCalled

theorem isValid_linesOf :
    ∀ line ∈ linesOf files, line.IsValid := by
  intro line member
  obtain ⟨file, isFile, inFile⟩ := List.mem_flatMap.mp member
  obtain ⟨s, isNode, rfl⟩ := List.mem_map.mp inFile
  have inFiles : s ∈ files.flatMap nodesOf :=
    List.mem_flatMap.mpr ⟨file, isFile, isNode⟩
  refine ⟨readable.sids s inFiles, fun word isWord => ?_⟩
  rcases List.mem_append.mp isWord with isSucc | isCall
  · obtain ⟨n, isNext, rfl⟩ := List.mem_map.mp isSucc
    exact readable.succs s inFiles n isNext
  · obtain ⟨g, isCalled, rfl⟩ := List.mem_map.mp isCall
    exact isValid_writeCfgCall readable isFile isNode isCalled

theorem isEntry_exportedEntries :
    ∀ entry ∈ exportedEntries files, IsEntry entry := by
  intro entry member
  obtain ⟨f, isExported, rfl⟩ := List.mem_map.mp member
  have isFunction := (List.mem_filter.mp isExported).1
  exact ⟨readable.names f isFunction, isNode_first readable isFunction⟩

end Validity

section RoundTrip

theorem sids_linesOf (files : List (List Function)) :
    (linesOf files).map Prod.fst = (files.flatMap nodesOf).map Node.sid := by
  rw [linesOf, List.map_flatMap, List.map_flatMap]
  refine List.flatMap_congr fun file _ => ?_
  rw [List.map_map]
  rfl

/-- The only item that fits is found. -/
theorem find?_eq_some_of_unique
    {Item : Type}
    {fits : Item → Bool}
    {items : List Item}
    {item : Item}
    (member : item ∈ items)
    (isFit : fits item = true)
    (unique : ∀ other ∈ items, fits other = true → other = item) :
    items.find? fits = some item := by
  cases found : items.find? fits with
  | none =>
      exact absurd isFit (List.find?_eq_none.mp found item member)
  | some first =>
      rw [unique first (List.mem_of_find?_eq_some found)
        (List.find?_some found)]

/-- With distinct ids a line is found by its id. -/
theorem find?_line
    {lines : List Line}
    (distinct : (lines.map Prod.fst).Nodup)
    {line : Line}
    (member : line ∈ lines) :
    lines.find? (fun other => decide (other.1 = line.1)) = some line := by
  refine
    find?_eq_some_of_unique member (decide_eq_true rfl)
      fun found isFound accepted => ?_
  have sameId : found.1 = line.1 := of_decide_eq_true accepted
  exact List.inj_on_of_nodup_map distinct isFound member sameId

variable (readable : Readable files)

include readable

/-- The graph is read line by line, with all exported names known. -/
theorem readCfg_eq :
    readCfg (cfgFuncMap files) (cfg files) =
      some
        ((linesOf files).foldl
          (fun graph line =>
            addEdges (exportedEntries files).reverse graph line.1 line.2)
          []) := by
  have entriesFit :
      (exportedEntries files).length < (cfgFuncMap files).length + 1 := by
    rw [cfgFuncMap_eq]
    refine Nat.lt_succ_of_le (length_le_length_flatMap (fun entry => ?_) _)
    simp [entryText]
  have linesFit : (linesOf files).length < (cfg files).length + 1 := by
    rw [cfg_eq]
    exact
      Nat.lt_succ_of_le
        (length_le_length_flatMap (fun line => by simp) _)
  have names :
      (readFuncNodeMap ((cfgFuncMap files).length + 1) []
          (opened (cfgFuncMap files))).1 =
        (exportedEntries files).reverse ++ [] := by
    have read :=
      readFuncNodeMap_texts (isEntry_exportedEntries readable)
        (List.forall_mem_nil _) [] entriesFit
    rw [List.nil_append, ← cfgFuncMap_eq] at read
    exact read
  rw [readCfg, names, List.append_nil, cfg_eq]
  rw [cfg_eq] at linesFit
  exact readLines_texts (isValid_linesOf readable) [] linesFit

/--
Reading gives each statement its successors and the targets of its calls, and
no other node has neighbours.
-/
theorem readCfg_written :
    ∃ graph,
      readCfg (cfgFuncMap files) (cfg files) = some graph ∧
        (∀ file ∈ files, ∀ s ∈ nodesOf file,
          neighbours graph s.sid =
            (s.succs ++ s.calls.filterMap (target files file)).map
              fun dst => (dst, 0)) ∧
          ∀ sid, 0 ≤ sid →
            sid ∉ (files.flatMap nodesOf).map Node.sid →
              neighbours graph sid = [] := by
  have distinct : ((linesOf files).map Prod.fst).Nodup := by
    rw [sids_linesOf]
    exact readable.distinct
  refine ⟨_, readCfg_eq readable, ?_, ?_⟩
  · intro file isFile s isNode
    have inFiles : s ∈ files.flatMap nodesOf :=
      List.mem_flatMap.mpr ⟨file, isFile, isNode⟩
    have isLine :
        (s.sid, wordsOf (buildFirstStmtIdMap file) s) ∈ linesOf files :=
      List.mem_flatMap.mpr ⟨file, isFile, List.mem_map_of_mem isNode⟩
    have found := find?_line distinct isLine
    rw [neighbours_foldl (isValid_linesOf readable) distinct [] s.sid
      (readable.sids s inFiles).1, found]
    exact edges_wordsOf readable isFile isNode
  · intro sid nonnegative notStatement
    have notFound :
        (linesOf files).find? (fun line => decide (line.1 = sid)) = none := by
      refine List.find?_eq_none.mpr fun line isLine same => notStatement ?_
      rw [← sids_linesOf, ← of_decide_eq_true same]
      exact List.mem_map_of_mem isLine
    rw [neighbours_foldl (isValid_linesOf readable) distinct [] sid
      nonnegative, notFound]
    rfl

omit readable

/-- Two files with a static function of one name in each. -/
def twoFiles : List (List Function) :=
  [[{ svar := { vid := 1, vname := ['m', 'a', 'i', 'n'], isStatic := false }
      first :=
        { sid := 1
          succs := [2]
          is :=
            [.call { vid := 2, vname := ['i', 'n', 'i', 't'], isStatic := true },
              .call
                { vid := 3, vname := ['p', 'u', 't', 's'], isStatic := false },
              .callExp,
              .call { vid := 4, vname := ['r', 'u', 'n'], isStatic := false }] }
      others := [{ sid := 2, succs := [], is := [.other] }] },
    { svar := { vid := 2, vname := ['i', 'n', 'i', 't'], isStatic := true }
      first := { sid := 3, succs := [], is := [] }
      others := [] }],
  [{ svar := { vid := 1, vname := ['i', 'n', 'i', 't'], isStatic := true }
     first :=
       { sid := 4
         succs := []
         is :=
           [.call
             { vid := 3, vname := ['m', 'a', 'i', 'n'], isStatic := false }] }
     others := [] },
   { svar := { vid := 2, vname := ['r', 'u', 'n'], isStatic := false }
     first :=
       { sid := 5
         succs := [5]
         is :=
           [.call { vid := 1, vname := ['i', 'n', 'i', 't'], isStatic := true }] }
     others := [] }]]

theorem readable_twoFiles : Readable twoFiles where
  distinct := by decide
  sids := by decide
  succs := by decide
  names := by decide
  callees := by decide
  exported := by decide
  oneVariable := by decide

/-- The call of `run` is found in the other file, that of `puts` nowhere. -/
theorem readCfg_twoFiles :
    ∃ graph,
      readCfg (cfgFuncMap twoFiles) (cfg twoFiles) = some graph ∧
        neighbours graph 1 = [(2, 0), (3, 0), (5, 0)] ∧
        neighbours graph 4 = [(1, 0)] ∧
        neighbours graph 5 = [(5, 0), (4, 0)] := by
  obtain ⟨graph, read, nodes, _⟩ := readCfg_written readable_twoFiles
  have firstFile := nodes _ List.mem_cons_self _ List.mem_cons_self
  have secondFile :=
    nodes _ (List.mem_cons_of_mem _ List.mem_cons_self)
  refine ⟨graph, read, firstFile, ?_, ?_⟩
  · exact secondFile _ List.mem_cons_self
  · exact secondFile _ (List.mem_cons_of_mem _ List.mem_cons_self)

end RoundTrip

end CfgFiles

end Compi
