import ShardKV.Cluster.Sort
import ShardKV.Commands.Reported

/-! SORT and the geo commands, and what holds of the collections that all commands leave. SORT reads
a collection, weighs its elements by the keys a pattern names, and stores the result as a list;
the geo commands are written over those of sorted sets. A command may make a container before
it knows whether it puts anything in, and may take the last element out by any of several ways;
still no list, hash, set or sorted set is ever stored empty. -/

namespace ShardKV.Commands

open Access Data Resp Server Cluster Prog

variable {S : Type} [Numeric S]

/-- `sortSpec`. -/
structure SortOptions extends SortSpec where
  alpha : Bool
  desc : Bool
  limit : Option (ℤ × ℤ)
  store : Option Bytes
  deriving DecidableEq

def noSortOptions : SortOptions := ⟨⟨[], false, false, []⟩, false, false, none, none⟩

/-- `parseSort`, all of it. -/
def parseSortOpts (readOnly : Bool) : SortOptions → List Bytes → Except Reply SortOptions
  | o, [] => .ok o
  | o, a :: rest =>
    if isWord a "ASC" then parseSortOpts readOnly { o with desc := false } rest
    else if isWord a "DESC" then parseSortOpts readOnly { o with desc := true } rest
    else if isWord a "ALPHA" then parseSortOpts readOnly { o with alpha := true } rest
    else if isWord a "BY" then
      match rest with
      | [] => .error syntaxErr
      | p :: rest =>
        parseSortOpts readOnly { o with byPattern := p, hasBy := true, dontsort := !p.contains 42 } rest
    else if isWord a "GET" then
      match rest with
      | [] => .error syntaxErr
      | p :: rest => parseSortOpts readOnly { o with getPattern := o.getPattern ++ [p] } rest
    else if isWord a "LIMIT" then
      match rest with
      | start :: count :: rest =>
        match parseInt64 start, parseInt64 count with
        | some start, some count => parseSortOpts readOnly { o with limit := some (start, count) } rest
        | _, _ => .error notIntegerErr
      | _ => .error syntaxErr
    else if isWord a "STORE" then
      if readOnly then .error syntaxErr
      else
        match rest with
        | [] => .error syntaxErr
        | dst :: rest => parseSortOpts readOnly { o with store := some dst } rest
    else .error syntaxErr

/-- What is sorted; nothing for a missing key. -/
inductive SortKind
  | none
  | list
  | set
  | zset
  deriving DecidableEq

/-- `SortSource`, with the order in which the members of a set come. -/
def sortSource (order : Finset Bytes → List Bytes) (k : Loc) :
    Op S (Except StoreErr (List Bytes × SortKind)) :=
  .read k fun
    | none => pure (.ok ([], .none))
    | some ⟨.list l, _⟩ => pure (.ok (l, .list))
    | some ⟨.set m, _⟩ => pure (.ok (order m, .set))
    | some ⟨.zset z, _⟩ => pure (.ok (z.nodes.map Prod.snd, .zset))
    | some _ => pure (.error .wrongType)

structure SortItem (S : Type) where
  elem : Bytes
  score : S
  byVal : Bytes
  byNull : Bool

def notDoubleErr : Reply := errorReply "ERR One or more scores can't be converted into double"

def weighElement (o : SortOptions) (e : Bytes) : Option Bytes → Except Reply (SortItem S)
  | none => .ok ⟨e, Numeric.zero, [], true⟩
  | some val =>
    if o.alpha then .ok ⟨e, Numeric.zero, val, false⟩
    else
      match Numeric.parseScore val with
      | none => .error notDoubleErr
      | some score => .ok ⟨e, score, [], false⟩

def weightText (v : View) (o : SortOptions) (e : Bytes) : Op S (Option Bytes) :=
  if o.hasBy then lookupByPattern v o.byPattern e else pure (some e)

/-- The weights of the elements, up to the first that is no number. -/
def weighElements (v : View) (o : SortOptions) : List Bytes → Op S (Except Reply (List (SortItem S)))
  | [] => pure (.ok [])
  | e :: es => do
    let val ← weightText v o e
    match weighElement o e val with
    | .error r => pure (.error r)
    | .ok item => Except.map (item :: ·) <$> weighElements v o es

def SortItem.less (o : SortOptions) (a b : SortItem S) : Bool :=
  if a.byNull != b.byNull then a.byNull
  else if a.byNull then decide (a.elem < b.elem)
  else if o.alpha && o.hasBy && a.byVal != b.byVal then decide (a.byVal < b.byVal)
  else if o.alpha then decide (a.elem < b.elem)
  else if a.score ≠ b.score then decide (a.score < b.score)
  else decide (a.elem < b.elem)

def sortElements (v : View) (o : SortOptions) (kind : SortKind) (elems : List Bytes) :
    Op S (Except Reply (List Bytes)) :=
  if o.dontsort then
    pure (.ok (if o.desc && (kind = .list || kind = .zset) then elems.reverse else elems))
  else
    Except.map (fun items : List (SortItem S) =>
      let sorted := (items.mergeSort fun a b => !b.less o a).map SortItem.elem
      if o.desc then sorted.reverse else sorted) <$> weighElements v o elems

/-- `applySortLimit`: a negative start is 0, a negative count goes to the end. -/
def applySortLimit (o : SortOptions) (ordered : List Bytes) : List Bytes :=
  match o.limit with
  | none => ordered
  | some (start, count) =>
    let rest := ordered.drop start.toNat
    if 0 ≤ count ∧ count < rest.length then rest.take count.toNat else rest

/-- The values of the GET patterns for one element. -/
def elementValues (v : View) (e : Bytes) : List Bytes → Op S (List (Option Bytes))
  | [] => pure []
  | p :: ps => do
    let val ← lookupGetPattern v p e
    (val :: ·) <$> elementValues v e ps

/-- The values for every element, pattern by pattern. -/
def sortValues (v : View) (patterns : List Bytes) : List Bytes → Op S (List (Option Bytes))
  | [] => pure []
  | e :: es => do
    let vals ← elementValues v e patterns
    (vals ++ ·) <$> sortValues v patterns es

def replaceList (dst : Loc) (vals : List Bytes) : Op S ℤ :=
  if vals.isEmpty then .write dst none (pure 0)
  else .write dst (some ⟨.list vals, none⟩) (pure vals.length)

/-- What is stored: a missing value is an empty string. -/
def storedValues (v : View) (o : SortOptions) (ordered : List Bytes) : Op S (List Bytes) :=
  if o.getPattern.isEmpty then pure ordered
  else List.map (Option.getD · []) <$> sortValues v o.getPattern ordered

def sortStore (v : View) (o : SortOptions) (dst : Bytes) (ordered : List Bytes) : Op S (Reply × Bool) := do
  let vals ← storedValues v o ordered
  (fun n => (.int n, true)) <$> replaceList (v.loc dst) vals

/-- `writeSortReply`. -/
def sortReply (v : View) (o : SortOptions) (ordered : List Bytes) : Op S Reply :=
  if o.getPattern.isEmpty then pure (.array (ordered.map .bulk))
  else
    (fun vals => .array (vals.map fun
      | none => .null
      | some b => .bulk b)) <$> sortValues v o.getPattern ordered

/-- A set has no order of its own, so one that is stored is sorted. -/
def SortOptions.settle (o : SortOptions) (kind : SortKind) : SortOptions :=
  if o.dontsort && kind = .set && o.store.isSome then
    { o with dontsort := false, alpha := true, hasBy := false }
  else o

def runSort (readOnly : Bool) (order : Finset Bytes → List Bytes) (v : View) : Args → Op S (Reply × Bool)
  | _ :: key :: opts =>
    match parseSortOpts readOnly noSortOptions opts with
    | .error r => pure (r, false)
    | .ok o =>
      match if v.cluster then sortClusterCheck key o.toSortSpec else none with
      | some text => pure (errorReply text, false)
      | none => do
        match ← sortSource order (v.loc key) with
        | .error err => pure (storeErrReply err, false)
        | .ok (elems, kind) =>
          match ← sortElements v (o.settle kind) kind elems with
          | .error r => pure (r, false)
          | .ok ordered =>
            match o.store with
            | some dst => sortStore v (o.settle kind) dst (applySortLimit o ordered)
            | none => (·, false) <$> sortReply v (o.settle kind) (applySortLimit o ordered)
  | _ => pure (syntaxErr, false)

def cmdSort (order : Finset Bytes → List Bytes) (v : View) (args : Args) : Op S (Reply × Bool) :=
  runSort false order v args

def cmdSortRO (v : View) (env : Env) (args : Args) : Op S Reply :=
  Prod.fst <$> runSort true env.order v args

section Geo

/-- The arithmetic of the geo commands: the score of a position, if it is one, and the members that a
search finds in what is stored at its key, with the scores it would store. -/
structure Geo (S : Type) [LinearOrder S] where
  encode : S → S → Option S
  search : Args → Option (Entry S) → Except Reply (List (S × Bytes))

variable (geo : Geo S)

/-- The option words in front of the positions. -/
def takeGeoOpts : ZAddOptions → List Bytes → ZAddOptions × List Bytes
  | o, [] => (o, [])
  | o, a :: rest =>
    if isWord a "NX" then takeGeoOpts { o with nx := true } rest
    else if isWord a "XX" then takeGeoOpts { o with xx := true } rest
    else if isWord a "CH" then takeGeoOpts { o with ch := true } rest
    else (o, a :: rest)

def parsePositions : List Bytes → Except Reply (List (S × Bytes))
  | lon :: lat :: member :: rest =>
    match Numeric.parseScore (S := S) lon, Numeric.parseScore (S := S) lat with
    | some x, some y =>
      match geo.encode x y with
      | none => .error (.error (ascii "ERR invalid longitude,latitude pair " ++ Numeric.formatScore x ++
          ascii "," ++ Numeric.formatScore y))
      | some score => (parsePositions rest).map ((score, member) :: ·)
    | _, _ => .error notFloatErr
  | _ => .ok []

def cmdGeoAdd (v : View) : Args → Op S (Reply × Bool)
  | _ :: key :: opts =>
    let (o, rest) := takeGeoOpts noZAddOptions opts
    if rest.isEmpty || rest.length % 3 ≠ 0 then pure (syntaxErr, false)
    else if o.nx && o.xx then pure (syntaxErr, false)
    else
      match parsePositions geo rest with
      | .error r => pure (r, false)
      | .ok members =>
        (fun
          | .error err => (storeErrReply err, false)
          | .ok (added, changed) => (.int (if o.ch then changed else added), decide (0 < changed))) <$>
          zAddMulti (v.loc key) o members
  | _ => pure (syntaxErr, false)

def geoStoreResults (dst : Loc) (results : List (S × Bytes)) : Op S (Reply × Bool) := do
  let deleted ← del dst
  if results.isEmpty then pure (.int 0, deleted)
  else
    (fun
      | .error err => (storeErrReply err, false)
      | .ok _ => (.int results.length, true)) <$> zAddMulti dst noZAddOptions results

/-- A search of one key that stores what it found at another, or answers with it. -/
def geoSearchTo (v : View) (src : Bytes) (dst : Option Bytes) (args : Args) : Op S (Reply × Bool) :=
  .read (v.loc src) fun e =>
    match geo.search args e with
    | .error r => pure (r, false)
    | .ok results =>
      match dst with
      | none => pure (.array (results.map fun n => .bulk n.2), false)
      | some dst => geoStoreResults (v.loc dst) results

def cmdGeoSearchStore (v : View) : Args → Op S (Reply × Bool)
  | name :: dst :: src :: opts => geoSearchTo geo v src (some dst) (name :: dst :: src :: opts)
  | _ => pure (syntaxErr, false)

/-- GEORADIUS and GEORADIUSBYMEMBER, with the unit at `pos`. -/
def geoRadius (pos : ℕ) (v : View) : Args → Op S (Reply × Bool)
  | name :: key :: opts =>
    geoSearchTo geo v key (geoTargets pos (name :: key :: opts)).head? (name :: key :: opts)
  | _ => pure (syntaxErr, false)

def cmdGeoRadius : View → Args → Op S (Reply × Bool) := geoRadius geo 5

def cmdGeoRadiusByMember : View → Args → Op S (Reply × Bool) := geoRadius geo 4

end Geo

section Table

variable (geo : Geo S) (order : Finset Bytes → List Bytes)

def sortCommands : List (String × Command S) :=
  [("SORT", ⟨-2, .write (cmdSort order)⟩), ("SORT_RO", ⟨-2, .query cmdSortRO⟩)]

def geoCommands : List (String × Command S) :=
  [("GEOADD", ⟨-5, .write (cmdGeoAdd geo)⟩), ("GEOSEARCHSTORE", ⟨-8, .write (cmdGeoSearchStore geo)⟩),
    ("GEORADIUS", ⟨-6, .write (cmdGeoRadius geo)⟩),
    ("GEORADIUSBYMEMBER", ⟨-5, .write (cmdGeoRadiusByMember geo)⟩)]

/-- The data commands, SORT and the geo commands. -/
def collectionTable : Table S := fun name =>
  (dataTable name).or
    (((sortCommands order ++ geoCommands geo : List (String × Command S)).find?
      fun p => ascii p.1 == name).map Prod.snd)

end Table

section Keeping

variable {ok : Data.Stream → Prop} {v : View} {args : Args}

theorem readOnly_lookupByPattern (p e : Bytes) : (lookupByPattern v p e : Op S (Option Bytes)).ReadOnly := by
  unfold lookupByPattern
  split
  · trivial
  · rintro (_ | ⟨_ | _ | _ | _ | _ | _, d⟩) <;> trivial
  · rintro (_ | ⟨_ | _ | _ | _ | _ | _, d⟩) <;> trivial

theorem readOnly_lookupGetPattern (p e : Bytes) :
    (lookupGetPattern v p e : Op S (Option Bytes)).ReadOnly := by
  unfold lookupGetPattern
  split
  · trivial
  · exact readOnly_lookupByPattern p e

theorem readOnly_weighElements (o : SortOptions) (elems : List Bytes) :
    (weighElements v o elems : Op S (Except Reply (List (SortItem S)))).ReadOnly := by
  induction elems with
  | nil => trivial
  | cons e es ih =>
    rw [weighElements]
    refine readOnly_bind ?_ fun val => ?_
    · unfold weightText
      split
      · exact readOnly_lookupByPattern _ _
      · trivial
    · split
      · trivial
      · exact readOnly_map ih _

theorem readOnly_sortElements (o : SortOptions) (kind : SortKind) (elems : List Bytes) :
    (sortElements v o kind elems : Op S (Except Reply (List Bytes))).ReadOnly := by
  unfold sortElements
  split
  · trivial
  · exact readOnly_map (readOnly_weighElements o elems) _

theorem readOnly_sortSource (order : Finset Bytes → List Bytes) (k : Loc) :
    (sortSource order k : Op S (Except StoreErr (List Bytes × SortKind))).ReadOnly := by
  rintro (_ | ⟨_ | _ | _ | _ | _ | _, d⟩) <;> trivial

theorem readOnly_elementValues (e : Bytes) (patterns : List Bytes) :
    (elementValues v e patterns : Op S (List (Option Bytes))).ReadOnly := by
  induction patterns with
  | nil => trivial
  | cons p ps ih =>
    rw [elementValues]
    exact readOnly_bind (readOnly_lookupGetPattern p e) fun _ => readOnly_map ih _

theorem readOnly_sortValues (patterns elems : List Bytes) :
    (sortValues v patterns elems : Op S (List (Option Bytes))).ReadOnly := by
  induction elems with
  | nil => trivial
  | cons e es ih =>
    rw [sortValues]
    exact readOnly_bind (readOnly_elementValues e patterns) fun _ => readOnly_map ih _

theorem keeps_replaceList (dst : Loc) (vals : List Bytes) :
    (replaceList dst vals : Op S ℤ).Keeps (Proper ok) := by
  unfold replaceList
  split
  · exact keeps_drop (keeps_ret _)
  · rename_i hne
    exact keeps_put (by simpa using hne) (keeps_ret _)

theorem keeps_sortStore (o : SortOptions) (dst : Bytes) (ordered : List Bytes) :
    (sortStore v o dst ordered : Op S _).Keeps (Proper ok) := by
  refine keeps_bind (keeps_readOnly ?_) fun vals => keeps_map (keeps_replaceList _ vals) _
  unfold storedValues
  split
  · trivial
  · exact readOnly_map (readOnly_sortValues _ _) _

theorem readOnly_sortReply (o : SortOptions) (ordered : List Bytes) :
    (sortReply v o ordered : Op S Reply).ReadOnly := by
  unfold sortReply
  split
  · trivial
  · exact readOnly_map (readOnly_sortValues _ _) _

theorem keeps_runSort (readOnly : Bool) (order : Finset Bytes → List Bytes) :
    (runSort readOnly order v args : Op S _).Keeps (Proper ok) := by
  unfold runSort
  split
  · split
    · exact keeps_ret _
    · split
      · exact keeps_ret _
      · refine keeps_bind (keeps_readOnly (readOnly_sortSource order _)) fun source => ?_
        split
        · exact keeps_ret _
        · refine keeps_bind (keeps_readOnly (readOnly_sortElements _ _ _)) fun sorted => ?_
          split
          · exact keeps_ret _
          · split
            · exact keeps_sortStore _ _ _
            · exact keeps_map (keeps_readOnly (readOnly_sortReply _ _)) _
  · exact keeps_ret _

theorem keeps_zAddMulti (k : Loc) (o : ZAddOptions) (members : List (S × Bytes)) :
    (zAddMulti k o members : Op S (Except StoreErr (ℤ × ℤ))).Keeps (Proper ok) := by
  have hsound : (id <$> zAddMulti k o members : Op S (Except StoreErr (ℤ × ℤ))).Sound (Proper ok)
      fun _ => true := zAddMulti_sound k o members fun _ _ _ => rfl
  intro vis s hs
  simpa using hsound.keeps vis s hs

theorem keeps_cmdGeoAdd (geo : Geo S) : (cmdGeoAdd geo v args).Keeps (Proper ok) := by
  unfold cmdGeoAdd
  split
  · dsimp only
    split
    · exact keeps_ret _
    · split
      · exact keeps_ret _
      · split
        · exact keeps_ret _
        · exact keeps_map (keeps_zAddMulti _ _ _) _
  · exact keeps_ret _

theorem keeps_geoSearchTo (geo : Geo S) (src : Bytes) (dst : Option Bytes) :
    (geoSearchTo geo v src dst args).Keeps (Proper ok) := by
  refine keeps_read fun e _ => ?_
  split
  · exact keeps_ret _
  · split
    · exact keeps_ret _
    · refine keeps_bind (del_sound _).keeps fun deleted => ?_
      split
      · exact keeps_ret _
      · exact keeps_map (keeps_zAddMulti _ _ _) _

theorem keeps_cmdGeoSearchStore (geo : Geo S) : (cmdGeoSearchStore geo v args).Keeps (Proper ok) := by
  unfold cmdGeoSearchStore
  split
  · exact keeps_geoSearchTo geo _ _
  · exact keeps_ret _

theorem keeps_geoRadius (geo : Geo S) (pos : ℕ) : (geoRadius geo pos v args).Keeps (Proper ok) := by
  unfold geoRadius
  split
  · exact keeps_geoSearchTo geo _ _
  · exact keeps_ret _

theorem keeps_apply_write {arity : ℤ} {h : View → Args → Op S (Reply × Bool)} (env : Env)
    (hh : (h v args).Keeps (Proper ok)) :
    (Command.apply ⟨arity, .write h⟩ v env args).Keeps (Proper ok) :=
  keeps_bind hh fun _ => keeps_ret _

theorem keeps_apply_query {arity : ℤ} {h : View → Env → Args → Op S Reply} (env : Env)
    (hh : (h v env args).Keeps (Proper ok)) :
    (Command.apply ⟨arity, .query h⟩ v env args).Keeps (Proper ok) :=
  keeps_bind hh fun _ => keeps_ret _

/-- Every command of the table keeps the collections from being stored empty. -/
theorem keeps_collectionTable (geo : Geo S) (order : Finset Bytes → List Bytes) {c : Command S}
    (hc : (collectionTable geo order).resolve args = some c) (env : Env) :
    (c.apply v env args).Keeps (Proper ok) := by
  cases args with
  | nil => cases hc
  | cons name rest =>
    obtain ⟨hc, harity⟩ := Option.filter_eq_some_iff.1 hc
    rcases Option.or_eq_some_iff.1 hc with hdata | ⟨-, hextra⟩
    · have hres : dataTable.resolve (name :: rest) = some c :=
        Option.filter_eq_some_iff.2 ⟨hdata, harity⟩
      exact ((dataTable_faithful hres).sound v env).keeps
    · obtain ⟨p, hp, rfl⟩ := Option.map_eq_some_iff.1 hextra
      have hmem := List.mem_of_find?_eq_some hp
      simp only [sortCommands, geoCommands, List.cons_append, List.nil_append, List.mem_cons,
        List.not_mem_nil, or_false] at hmem
      rcases hmem with rfl | rfl | rfl | rfl | rfl | rfl
      · exact keeps_apply_write env (keeps_runSort false order)
      · exact keeps_apply_query env (keeps_map (keeps_runSort true env.order) _)
      · exact keeps_apply_write env (keeps_cmdGeoAdd geo)
      · exact keeps_apply_write env (keeps_cmdGeoSearchStore geo)
      · exact keeps_apply_write env (keeps_geoRadius geo 5)
      · exact keeps_apply_write env (keeps_geoRadius geo 4)

end Keeping

/-- What happens to the key space: a client's command, which may fail, with the database of the client
and what the command reads from outside; or a key is dropped because it is over or for room. -/
inductive KeyEvent
  | command (v : View) (env : Env) (args : Args)
  | dropped (k : Loc)

def KeyEvent.apply (geo : Geo S) (s : Dataset S) : KeyEvent → Dataset S
  | .command v env args =>
    (((collectionTable geo env.order).applyCommand v env args).run (live env.now) s).2
  | .dropped k => Function.update s k none

/-- The number of elements of a list, a hash, a set or a sorted set. -/
def elementCount : Value S → Option ℕ
  | .list l => some l.length
  | .hash h => some h.keys.card
  | .set m => some m.card
  | .zset z => some z.nodes.length
  | .str _ => none
  | .stream _ => none

theorem elementCount_pos {ok : Data.Stream → Prop} {e : Entry S} (h : Proper ok e) {n : ℕ}
    (hn : elementCount e.value = some n) : 0 < n := by
  obtain ⟨_ | l | f | m | z | _, d⟩ := e
  · cases hn
  · cases hn
    exact List.length_pos_iff.2 h
  · cases hn
    refine Finset.card_pos.2 (Finset.nonempty_iff_ne_empty.2 fun hnil => h ?_)
    refine Finmap.ext_lookup fun field => ?_
    rw [Finmap.lookup_eq_none.2 (by rw [← Finmap.mem_keys, hnil]; simp), Finmap.lookup_empty]
  · cases hn
    exact Finset.card_pos.2 (Finset.nonempty_iff_ne_empty.2 h)
  · cases hn
    exact List.length_pos_iff.2 h
  · cases hn

theorem proper_apply {ok : Data.Stream → Prop} (geo : Geo S) (ev : KeyEvent) {s : Dataset S}
    (hs : All (Proper ok) s) : All (Proper ok) (ev.apply geo s) := by
  cases ev with
  | command v env args =>
    cases hc : (collectionTable geo env.order).resolve args with
    | none => simpa [KeyEvent.apply, Table.applyCommand, hc] using hs
    | some c =>
      rw [KeyEvent.apply, run_applyCommand hc]
      exact keeps_collectionTable geo env.order hc env _ s hs
  | dropped k => exact all_update hs k fun x hx => by cases hx

/-- Whatever commands are run, failing ones included, no list, hash, set or sorted set is stored
empty. -/
theorem no_empty_collection (geo : Geo S) (events : List KeyEvent) (k : Loc) (e : Entry S) (n : ℕ) :
    events.foldl (KeyEvent.apply geo) emptyDataset k = some e → elementCount e.value = some n → 0 < n := by
  have hall : ∀ s : Dataset S, All (Proper fun _ => True) s →
      All (Proper fun _ => True) (events.foldl (KeyEvent.apply geo) s) := by
    induction events with
    | nil => exact fun s hs => hs
    | cons ev events ih => exact fun s hs => ih _ (proper_apply geo ev hs)
  intro he hn
  exact elementCount_pos (hall _ emptyDataset_proper k e he) hn

/-- A geometry without positions. -/
def nowhere : Geo ℤ := ⟨fun _ _ => none, fun _ _ => .ok []⟩

/-- Two elements are pushed, one is stored in the order of the list; the pop of both fails the next
time, and a float increment with a bad operand makes no hash. -/
def storedRun : List KeyEvent :=
  [[ascii "RPUSH", ascii "l", ascii "b", ascii "a"],
    [ascii "SORT", ascii "l", ascii "BY", ascii "nosort", ascii "LIMIT", ascii "1", ascii "-1", ascii "STORE",
      ascii "d"],
    [ascii "LPOP", ascii "l", ascii "2"], [ascii "LPOP", ascii "l"],
    [ascii "HINCRBYFLOAT", ascii "h", ascii "f", ascii "x"]].map
    (.command (Config.default.view 0) (Env.at 0))

theorem storedRun_nonempty : storedRun.foldl (KeyEvent.apply nowhere) emptyDataset (0, ascii "d") =
    some ⟨.list [ascii "a"], none⟩ ∧ 0 < 1 := by
  have hrun : storedRun.foldl (KeyEvent.apply nowhere) emptyDataset (0, ascii "d") =
      some ⟨.list [ascii "a"], none⟩ := by decide +kernel
  exact ⟨hrun, no_empty_collection nowhere storedRun _ _ 1 hrun rfl⟩

end ShardKV.Commands
