import SymbolicCalculus.Proofs.Buffering
import SymbolicCalculus.Proofs.Bytes
import SymbolicCalculus.Replay

/-! A text is partitioned by its items and the blanks between them: nothing else is skipped and nothing is read
twice. Calls for the next token go through the items one by one, and find the end of the text ever after. -/
namespace SymbolicCalculus

inductive Tiles : Nat → List Char → List Item → Prop where
  | blanks {offset cs} (blank : ∀ c ∈ cs, isBlank c = true) : Tiles offset cs []
  | item {offset skipped rest item items} (blank : ∀ c ∈ skipped, isBlank c = true) (some : item.piece.text ≠ [])
      (starts : item.span.start = offset + utf8Length skipped)
      (stops : item.span.stop = item.span.start + utf8Length item.piece.text)
      (behind : Tiles item.span.stop rest items) :
      Tiles offset (skipped ++ (item.piece.text ++ rest)) (item :: items)

theorem nextTiles {cursor after : Cursor} {item : Item} {items : List Item} (found : cursor.next = some (item,after))
    (behind : Tiles after.offset after.rest items) : Tiles cursor.offset cursor.rest (item :: items) := by
  obtain ⟨skipped,blank,split,starts,stops,ends⟩ := nextSplit found
  obtain ⟨c,rest,_,piece,_⟩ := nextCut found
  rw [← stops] at behind ends
  rw [split]
  exact .item blank (piece ▸ cutNonempty c rest) starts ends behind

theorem itemsTile (cursor : Cursor) : Tiles cursor.offset cursor.rest cursor.items := by
  induction cursor using Cursor.items.induct with
  | case1 cursor done =>
    rw [itemsAtEnd done]
    exact .blanks (nextBlanks done)
  | case2 cursor item after found ih =>
    rw [itemsAhead found]
    exact nextTiles found ih

section tiles
variable {offset : Nat} {cs : List Char} {items : List Item}

theorem tilesBounds (tiles : Tiles offset cs items) :
    ∀ item ∈ items, offset ≤ item.span.start ∧ item.span.stop ≤ offset + utf8Length cs := by
  induction tiles with
  | blanks => simp
  | item blank some starts stops behind ih =>
    intro other member
    simp only [utf8LengthAppend]
    rcases List.mem_cons.mp member with rfl | later
    · omega
    · have bounds := ih other later
      omega

theorem tilesApart (tiles : Tiles offset cs items) : items.Pairwise (fun a b => a.span.stop ≤ b.span.start) := by
  induction tiles with
  | blanks => exact .nil
  | item blank some starts stops behind ih =>
    exact .cons (fun other later => (tilesBounds behind other later).1) ih

theorem tilesCover (tiles : Tiles offset cs items) {text : String} {before : List Char}
    (whole : text.toList = before ++ cs) (size : utf8Length before = offset) :
    ∀ item ∈ items, Covers text item.span (String.ofList item.piece.text) := by
  induction tiles generalizing before with
  | blanks => simp
  | @item offset skipped rest item items blank some starts stops behind ih =>
    intro other member
    have place : utf8Length (before ++ skipped) = item.span.start := by rw [utf8LengthAppend,size,starts]
    rcases List.mem_cons.mp member with rfl | later
    · have split : text.toList = (before ++ skipped) ++ (other.piece.text ++ rest) := by rw [whole,List.append_assoc]
      have covers := coversPart split some
      rwa [place,← stops] at covers
    · have split : text.toList = (before ++ skipped ++ item.piece.text) ++ rest := by
        rw [whole,List.append_assoc,List.append_assoc]
      have further : utf8Length (before ++ skipped ++ item.piece.text) = item.span.stop := by
        rw [utf8LengthAppend,place,stops]
      exact ih split further other later

theorem tilesBlank (tiles : Tiles offset cs items) : ∀ i b, (bytes (String.ofList cs))[i]? = some b →
    (∀ item ∈ items, ¬ (item.span.start ≤ offset + i ∧ offset + i < item.span.stop)) → b ∈ blankBytes := by
  induction tiles with
  | blanks blank =>
    intro i b found _
    exact blanksBytes blank b (List.mem_of_getElem? found)
  | @item offset skipped rest item items blank some starts stops behind ih =>
    intro i b found free
    rw [String.ofList_append,String.ofList_append,bytesAppend,bytesAppend] at found
    have here := free item List.mem_cons_self
    by_cases first : i < utf8Length skipped
    · rw [List.getElem?_append_left (by rwa [bytesCount])] at found
      exact blanksBytes blank b (List.mem_of_getElem? found)
    · have passed : utf8Length skipped + utf8Length item.piece.text ≤ i := by omega
      rw [List.getElem?_append_right (by rw [bytesCount]; omega),
        List.getElem?_append_right (by rw [bytesCount,bytesCount]; omega),bytesCount,bytesCount] at found
      refine ih _ b found (fun other later => ?_)
      have apart := free other (List.mem_cons_of_mem item later)
      have place : item.span.stop + (i - utf8Length skipped - utf8Length item.piece.text) = offset + i := by omega
      rwa [place]

end tiles

def rejoined (source : List UInt8) (place : Nat) : List Item → List UInt8
  | [] => source.drop place
  | item :: items => source.extract place item.span.start ++
      (bytes (String.ofList item.piece.text) ++ rejoined source item.span.stop items)

theorem dropExtract {κ : Type} (source : List κ) {start stop : Nat} (ordered : start ≤ stop) :
    source.extract start stop ++ source.drop stop = source.drop start := by
  have split := List.take_append_drop (stop - start) (source.drop start)
  rwa [List.drop_drop,Nat.add_sub_cancel' ordered,← List.extract_eq_take_drop] at split

theorem rejoinedWhole {text : String} {offset : Nat} {items : List Item}
    (ahead : ∀ item ∈ items, offset ≤ item.span.start)
    (apart : items.Pairwise (fun a b => a.span.stop ≤ b.span.start))
    (covers : ∀ item ∈ items, Covers text item.span (String.ofList item.piece.text)) :
    rejoined (bytes text) offset items = (bytes text).drop offset := by
  induction items generalizing offset with
  | nil => rfl
  | cons item items ih =>
    obtain ⟨before,rest⟩ := List.pairwise_cons.mp apart
    have here := covers item List.mem_cons_self
    rw [rejoined,ih before rest (fun other later => covers other (List.mem_cons_of_mem item later)),← here.within,
      dropExtract _ (Nat.le_of_lt here.filled),dropExtract _ (ahead item List.mem_cons_self)]

structure Partition (text : String) (items : List Item) : Prop where
  endless : ∀ span, ⟨.token .endOfInput,span⟩ ∉ items
  tokens : ∀ t span, ⟨.token t,span⟩ ∈ items → Covers text span t.lexeme
  strays : ∀ c span, ⟨.stray c,span⟩ ∈ items → Covers text span c.toString
  apart : items.Pairwise (fun a b => a.span.stop ≤ b.span.start)
  blanks : ∀ i b, (bytes text)[i]? = some b →
    (∀ item ∈ items, ¬ (item.span.start ≤ i ∧ i < item.span.stop)) → b ∈ blankBytes
  rejoins : rejoined (bytes text) 0 items = bytes text

theorem textPartition (text : String) : Partition text (Cursor.ofText text).items := by
  have tiles : Tiles 0 text.toList (Cursor.ofText text).items := itemsTile (Cursor.ofText text)
  have covers := tilesCover tiles (List.nil_append _).symm rfl
  refine ⟨fun span => itemsNoEnd,?_,fun c span member => covers _ member,tilesApart tiles,?_,
    rejoinedWhole (fun _ _ => Nat.zero_le _) (tilesApart tiles) covers⟩
  · intro t span member
    have same := covers _ member
    rwa [Piece.text,String.ofList_toList] at same
  · have blank := tilesBlank tiles
    simpa only [String.ofList_toList,Nat.zero_add] using blank

section lexer
variable {lexer : Lexer} {item : Item} {after : Cursor}

theorem tokenEnd (done : lexer.cursor.next = none) :
    lexer.nextToken = (.ok (endToken lexer.cursor.stop),lexer) := by
  unfold Lexer.nextToken
  rw [done]

theorem tokenAhead (found : lexer.cursor.next = some (item,after)) :
    lexer.nextToken = (item.result,⟨after,lexer.finished⟩) := by
  unfold Lexer.nextToken
  rw [found]

theorem iterateAhead (found : lexer.cursor.next = some (item,after)) (unfinished : lexer.finished = false) :
    lexer.iterate = (some item.result,⟨after,false⟩) := by
  obtain ⟨c,rest,_,same,_⟩ := nextCut found
  have proper : item.piece ≠ .token .endOfInput := same ▸ cutNoEnd c rest
  unfold Lexer.iterate
  rw [unfinished,tokenAhead found,unfinished]
  obtain ⟨piece,span⟩ := item
  cases piece with
  | stray c => rfl
  | token t =>
    cases t with
    | endOfInput => exact absurd rfl proper
    | _ => rfl

theorem iterateEnd (done : lexer.cursor.next = none) : lexer.iterate = (none,⟨lexer.cursor,true⟩) := by
  obtain ⟨cursor,finished⟩ := lexer
  cases finished with
  | true => rfl
  | false =>
    unfold Lexer.iterate
    rw [tokenEnd done]
    rfl

theorem iterateFinished (finished : lexer.finished = true) : lexer.iterate = (none,lexer) := if_pos finished

end lexer

theorem callsNext (text : String) (n : Nat) (lexer saved : Lexer) :
    replay (lexerAnswer text) (List.replicate n (.call .nextToken)) lexer saved =
      (List.range n).map (fun k =>
        some (.found ((lexer.cursor.items[k]?.map Item.result).getD (.ok (endToken lexer.cursor.stop))))) := by
  induction n generalizing lexer with
  | zero => rfl
  | succ n ih =>
    rw [List.replicate_succ,List.range_succ_eq_map,replay]
    cases found : lexer.cursor.next with
    | none =>
      simp only [lexerAnswer,tokenEnd found,ih,itemsAtEnd found,List.getElem?_nil,List.map_cons,List.map_map,
        Option.map_none,Option.getD_none,Function.comp_def]
    | some pair =>
      obtain ⟨item,after⟩ := pair
      simp only [lexerAnswer,tokenAhead found,ih,itemsAhead found,nextStop found,List.map_cons,List.map_map,
        List.getElem?_cons_zero,Option.map_some,Option.getD_some,Function.comp_def,List.getElem?_cons_succ]

/-- Cutting a text into items loses nothing. Calls for the next token answer with the items in turn, and then with
the end, which has no characters and stands behind all bytes. The items are not empty, stand on character
boundaries, one behind the other, and their places in the text read as they do; a stray character is one
character of the text. What stands in no item is a blank, and with the blanks put back the items are the text. -/
theorem cutWhole (text : String) :
    (∀ n, lexerReplay text (List.replicate n (.call .nextToken)) = (List.range n).map (fun k =>
      some (.found (((Cursor.ofText text).items[k]?.map Item.result).getD
        (.ok ⟨.endOfInput,⟨text.utf8ByteSize,text.utf8ByteSize⟩⟩))))) ∧
    Token.endOfInput.lexeme = "" ∧ Partition text (Cursor.ofText text).items := by
  refine ⟨fun n => ?_,rfl,textPartition text⟩
  rw [lexerReplay,callsNext,Lexer.ofText,stopOfText]
  rfl

example : (tokenize "\t2é .x").map (fun found => match found with
    | .ok here => (here.token.lexeme,[here.span])
    | .error failure => (failure.message,failure.spans)) =
    [("2",[⟨1,2⟩]),("unexpected character `é`",[⟨2,4⟩]),(".",[⟨5,6⟩]),("x",[⟨6,7⟩]),("",[⟨7,7⟩])] := by
  decide +kernel

end SymbolicCalculus
