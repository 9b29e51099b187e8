import LittleJ.Table
import LittleJ.Text.Braces

/-!
# The standard library

A library written in the language itself: three global objects, `string`, `array` and `object`,
whose properties are functions. Each function is given by its own text, and the library is the
program that makes the objects and sets the properties in order.

Braces are written as angle brackets here; see `Text.braces`.
-/

namespace LittleJ.StandardLibrary

open Text (braces)

/-- A property of one of the three objects, with the expression it is set to. -/
structure Entry where
  object : String
  property : String
  text : String

def stringCharCodeAt : Entry :=
  ⟨"string", "charCodeAt", braces "function (s, i) ⟨ return ord(s[i]); ⟩"⟩

def stringConcat : Entry :=
  ⟨"string", "concat", braces "function (s1, s2) ⟨ return s1 + s2; ⟩"⟩

def stringSlice : Entry :=
  ⟨"string", "slice", braces "function (s, p1, p2) ⟨
    var ans = '', i = null, ls = len(s);
    if (p1 === null) ⟨ p1 = 0; ⟩ else if (p1 < 0) ⟨ p1 = ls + p1; ⟩
    if (p2 === null) ⟨ p2 = ls; ⟩ else if (p2 > ls) ⟨ p2 = ls; ⟩ else if (p2 < 0) ⟨ p2 = ls + p2; ⟩
    for (i = p1; i < p2; i += 1) ⟨ ans += s[i]; ⟩
    return ans;
⟩"⟩

def stringFrom : Entry :=
  ⟨"string", "from", braces "function (s, p1) ⟨ return string.slice(s, p1, null); ⟩"⟩

def stringUpto : Entry :=
  ⟨"string", "upto", braces "function (s, p2) ⟨ return string.slice(s, null, p2); ⟩"⟩

def stringIndexOf : Entry :=
  ⟨"string", "indexOf", braces "function (s, tgt, pos) ⟨
    var i = null, ls = len(s), ltgt = len(tgt);
    if (pos === null) ⟨ pos = 0; ⟩
    for (i = pos; i <= ls - ltgt; i += 1) ⟨
        if (string.slice(s, i, i + ltgt) === tgt) ⟨ return i; ⟩
    ⟩
    return -1;
⟩"⟩

def stringIndex : Entry :=
  ⟨"string", "index", braces "function (s, tgt) ⟨ return string.indexOf(s, tgt, null); ⟩"⟩

def stringLastIndexOf : Entry :=
  ⟨"string", "lastIndexOf", braces "function (s, tgt, pos) ⟨
    var i = null, ls = len(s), ltgt = len(tgt);
    if (pos === null) ⟨ pos = ls - 1; ⟩
    s = string.slice(s, 0, pos + 1);
    for (i = pos; i >= (ltgt - 1); i -= 1) ⟨
        if (string.slice(s, i - (ltgt - 1), i + 1) === tgt) ⟨
            return i - (ltgt - 1);
        ⟩
    ⟩
    return -1;
⟩"⟩

def stringRindex : Entry :=
  ⟨"string", "rindex", braces "function (s, tgt) ⟨ return string.lastIndexOf(s, tgt, null); ⟩"⟩

def stringReplace : Entry :=
  ⟨"string", "replace", braces "function (s, old, rep) ⟨
    var i = null, lold = len(old);
    while (true) ⟨
        i = string.indexOf(s, old, null);
        if (i === -1) ⟨ break; ⟩
        s = string.upto(s, i) + rep + string.from(s, i + lold);
    ⟩
    return s;
⟩"⟩

def arraySlice : Entry :=
  ⟨"array", "slice", braces "function (a, p1, p2) ⟨
    var ans = [], i = null, la = len(a);
    if (p1 === null) ⟨ p1 = 0; ⟩ else if (p1 < 0) ⟨ p1 = la + p1; ⟩
    if (p2 === null) ⟨ p2 = la; ⟩ else if (p2 > la) ⟨ p2 = la; ⟩ else if (p2 < 0) ⟨ p2 = la + p2; ⟩
    for (i = p1; i < p2; i += 1) ⟨ append(ans, a[i]); ⟩
    return ans;
⟩"⟩

def arrayFrom : Entry :=
  ⟨"array", "from", braces "function (a, p1) ⟨ return array.slice(a, p1, null); ⟩"⟩

def arrayUpto : Entry :=
  ⟨"array", "upto", braces "function (a, p2) ⟨ return array.slice(a, null, p2); ⟩"⟩

def stringSplit : Entry :=
  ⟨"string", "split", braces "function (s, sep) ⟨
    var ans = [], i = null, ls = len(s), lsep = len(sep);
    if (sep === '') ⟨
        for (i = 0; i < ls; i += 1) ⟨ append(ans, s[i]); ⟩
        return ans;
    ⟩
    while (true) ⟨
        i = string.index(s, sep);
        if (i === -1) ⟨
            append(ans, s);
            break;
        ⟩
        append(ans, string.upto(s, i));
        s = string.from(s, i + lsep);
    ⟩
    return ans;
⟩"⟩

def stringSplitLimit : Entry :=
  ⟨"string", "splitLimit", braces "function (s, sep, limit) ⟨
    return array.upto(string.split(s, sep), limit);
⟩"⟩

def stringToLowerCase : Entry :=
  ⟨"string", "toLowerCase", braces "function (s) ⟨
    var ans = '', i = null, ls = len(s),
        ordA = ord('A'), ordZ = ord('Z'), ordI = null;
    for (i = 0; i < ls; i += 1) ⟨
        ordI = ord(s[i]);
        if (ordA <= ordI && ordI <= ordZ) ⟨ ans += chr(ordI + 32); ⟩ else ⟨ ans += s[i]; ⟩
    ⟩
    return ans;
⟩"⟩

def stringLower : Entry :=
  ⟨"string", "lower", braces "string.toLowerCase"⟩

def stringToUpperCase : Entry :=
  ⟨"string", "toUpperCase", braces "function (s) ⟨
    var ans = '', i = null, ls = len(s),
        o_a = ord('a'), o_z = ord('z'), o_i = null;
    for (i = 0; i < ls; i += 1) ⟨
        o_i = ord(s[i]);
        if (o_a <= o_i && o_i <= o_z) ⟨ ans += chr(o_i - 32); ⟩ else ⟨ ans += s[i]; ⟩
    ⟩
    return ans;
⟩"⟩

def stringUpper : Entry :=
  ⟨"string", "upper", braces "string.toUpperCase"⟩

def arrayConcat : Entry :=
  ⟨"array", "concat", braces "function (a1, a2) ⟨
    var ans = [], i = null, la1 = len(a1), la2 = len(a2);
    for (i = 0; i < la1; i += 1) ⟨ append(ans, a1[i]); ⟩
    for (i = 0; i < la2; i += 1) ⟨ append(ans, a2[i]); ⟩
    return ans;
⟩"⟩

def arrayJoin : Entry :=
  ⟨"array", "join", braces "function (a, sep) ⟨
    var ans = '', i = null, la = len(a);
    for (i = 0; i < la - 1; i += 1) ⟨ ans += str(a[i]) + sep; ⟩
    return ans + str(a[i]);
⟩"⟩

def arrayPopAt : Entry :=
  ⟨"array", "popAt", braces "function (a, i) ⟨
    var ans = a[i];
    del(a, i);
    return ans;
⟩"⟩

def arrayPop : Entry :=
  ⟨"array", "pop", braces "function (a) ⟨ return array.popAt(a, len(a) - 1); ⟩"⟩

def arrayPush : Entry :=
  ⟨"array", "push", braces "append"⟩

def arrayReverse : Entry :=
  ⟨"array", "reverse", braces "function (a) ⟨
    var i = null, tmp = null, la = len(a);
    for (i = 0; i < la / 2; i += 1) ⟨
        tmp = a[i];
        a[i] = a[(la - 1) - i];
        a[(la - 1) - i] = tmp;
    ⟩
    return null;
⟩"⟩

def arrayShift : Entry :=
  ⟨"array", "shift", braces "function (a) ⟨
    var ans = a[0];
    del(a, 0);
    return ans;
⟩"⟩

def arraySortBy : Entry :=
  ⟨"array", "sortBy", braces "function (a, f) ⟨
    var i = null, j = null, tmp = null, la = len(a);
    for (i = 0; i < la - 1; i += 1) ⟨
        for (j = i + 1; j < la; j += 1) ⟨
            if (f(a[i], a[j]) > 0) ⟨
                tmp = a[i];
                a[i] = a[j];
                a[j] = tmp;
            ⟩
        ⟩
    ⟩
    return a;
⟩"⟩

def arraySort : Entry :=
  ⟨"array", "sort", braces "function (a) ⟨
    var f = function (m, n) ⟨
        if (m <= n) ⟨ return -1; ⟩
        return 1;
    ⟩;
    return array.sortBy(a, f);
⟩"⟩

def arraySplice : Entry :=
  ⟨"array", "splice", braces "function (a, p1, count) ⟨
    var ans = [], i = null;
    if (count === null) ⟨ count = 1; ⟩
    for (i = 0; i < count; i += 1) ⟨
        append(ans, a[p1]);
        del(a, p1);
    ⟩
    return ans;
⟩"⟩

def arrayUnshift : Entry :=
  ⟨"array", "unshift", braces "function (a, elt) ⟨
    var i = null, la = append(a, elt);
    for (i = la - 1; i >= 1; i -= 1) ⟨ a[i] = a[i - 1]; ⟩
    a[0] = elt;
    return la;
⟩"⟩

def arrayIndexOf : Entry :=
  ⟨"array", "indexOf", braces "function (a, elt, pos) ⟨
    var i = null, la = len(a);
    if (pos === null) ⟨ pos = 0; ⟩
    for (i = pos; i < la; i += 1) ⟨ if (elt === a[i]) ⟨ return i; ⟩ ⟩
    return -1;
⟩"⟩

def arrayIndex : Entry :=
  ⟨"array", "index", braces "function (a, elt) ⟨ return array.indexOf(a, elt, null); ⟩"⟩

def arrayLastIndexOf : Entry :=
  ⟨"array", "lastIndexOf", braces "function (a, elt, pos) ⟨
    var i = null, la = len(a);
    if (pos === null) ⟨ pos = la - 1; ⟩
    for (i = pos; i >= 0; i -= 1) ⟨ if (elt === a[i]) ⟨ return i; ⟩ ⟩
    return -1;
⟩"⟩

def arrayRindex : Entry :=
  ⟨"array", "rindex", braces "function (a, elt) ⟨ return array.lastIndexOf(a, elt, null); ⟩"⟩

def arrayEvery : Entry :=
  ⟨"array", "every", braces "function (a, f) ⟨
    var i = null, la = len(a);
    for (i = 0; i < la; i += 1) ⟨ if (!f(a[i])) ⟨ return false; ⟩ ⟩
    return true;
⟩"⟩

def arrayAll : Entry :=
  ⟨"array", "all", braces "array.every"⟩

def arraySome : Entry :=
  ⟨"array", "some", braces "function (a, f) ⟨
    var i = null, la = len(a);
    for (i = 0; i < la; i += 1) ⟨ if (f(a[i])) ⟨ return true; ⟩ ⟩
    return false;
⟩"⟩

def arrayAny : Entry :=
  ⟨"array", "any", braces "array.some"⟩

def arrayForEach : Entry :=
  ⟨"array", "forEach", braces "function (a, f) ⟨
    var i = null, la = len(a);
    for (i = 0; i < la; i += 1) ⟨ f(a[i]); ⟩
    return null;
⟩"⟩

def arrayEach : Entry :=
  ⟨"array", "each", braces "array.forEach"⟩

def arrayMap : Entry :=
  ⟨"array", "map", braces "function (a, f) ⟨
    var ans = [], i = null, la = len(a);
    for (i = 0; i < la; i += 1) ⟨ append(ans, f(a[i])); ⟩
    return ans;
⟩"⟩

def arrayFilter : Entry :=
  ⟨"array", "filter", braces "function (a, f) ⟨
    var ans = [], i = null, la = len(a);
    for (i = 0; i < la; i += 1) ⟨ if (f(a[i])) ⟨ append(ans, a[i]); ⟩ ⟩
    return ans;
⟩"⟩

def arrayFold : Entry :=
  ⟨"array", "fold", braces "function (a, f, initial) ⟨
    var i = null, la = len(a);
    for (i = 0; i < la; i += 1) ⟨ initial = f(initial, a[i]); ⟩
    return initial;
⟩"⟩

def arrayFoldl : Entry :=
  ⟨"array", "foldl", braces "array.fold"⟩

def arrayReduce : Entry :=
  ⟨"array", "reduce", braces "function (a, f) ⟨
    return array.fold(array.from(a, 1), f, a[0]);
⟩"⟩

def arrayFoldr : Entry :=
  ⟨"array", "foldr", braces "function (a, f, initial) ⟨
    var i = null, la = len(a);
    for (i = la - 1; i >= 0; i -= 1) ⟨ initial = f(initial, a[i]); ⟩
    return initial;
⟩"⟩

def arrayReduceRight : Entry :=
  ⟨"array", "reduceRight", braces "function (a, f) ⟨
    return array.foldr(array.upto(a, -1), f, a[len(a) - 1]);
⟩"⟩

def objectKeys : Entry :=
  ⟨"object", "keys", braces "keys"⟩

def objectHasOwnProperty : Entry :=
  ⟨"object", "hasOwnProperty",
    braces "function (o, s) ⟨ return array.index(keys(o), s, null) !== -1; ⟩"⟩

/-- All properties, in the order in which they are set. -/
def entries : List Entry :=
  [stringCharCodeAt, stringConcat, stringSlice, stringFrom, stringUpto, stringIndexOf,
    stringIndex, stringLastIndexOf, stringRindex, stringReplace, arraySlice, arrayFrom,
    arrayUpto, stringSplit, stringSplitLimit, stringToLowerCase, stringLower,
    stringToUpperCase, stringUpper, arrayConcat, arrayJoin, arrayPopAt, arrayPop, arrayPush,
    arrayReverse, arrayShift, arraySortBy, arraySort, arraySplice, arrayUnshift, arrayIndexOf,
    arrayIndex, arrayLastIndexOf, arrayRindex, arrayEvery, arrayAll, arraySome, arrayAny,
    arrayForEach, arrayEach, arrayMap, arrayFilter, arrayFold, arrayFoldl, arrayReduce,
    arrayFoldr, arrayReduceRight, objectKeys, objectHasOwnProperty]

/-- The statement that sets a property. -/
def Entry.statement (e : Entry) : String :=
  e.object ++ "." ++ e.property ++ " = " ++ e.text ++ ";\n"

/-- The text of the library. -/
def source : String :=
  braces "var string = ⟨⟩, array = ⟨⟩, object = ⟨⟩;\n(function () ⟨\n'use strict';\n" ++
    String.join (entries.map Entry.statement) ++ braces "return null;\n⟩());\n"

/-- The name under which programs can run the library. -/
def fileName : String :=
  "stdlib.l.js"

/-- The files of a host, with the library among them. -/
def withLibrary (files : Table String) : Table String :=
  if files.has fileName then files else files ++ [(fileName, source)]

end LittleJ.StandardLibrary
