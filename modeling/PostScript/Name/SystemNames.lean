import PostScript.Bytes

/-
  This file lists the names that the binary encoding knows by
  number.

  Key definitions include:
    * `systemNameList`
    * `systemNames`
-/

namespace PostScript

/- The names in the order of their numbers. -/
def systemNameList : List String :=
  [
    "abs", "add", "aload", "anchorsearch", "and", "arc",
    "arcn", "arct", "arcto", "array", "ashow", "astore",
    "awidthshow", "begin", "bind", "bitshift", "ceiling",
    "charpath", "clear", "cleartomark", "clip", "clippath",
    "closepath", "concat", "concatmatrix", "copy",
    "copypage", "cos", "count", "counttomark",
    "currentcmykcolor", "currentdash", "currentdict",
    "currentfile", "currentfont", "currentgray",
    "currentgstate", "currenthsbcolor", "currentlinecap",
    "currentlinejoin", "currentlinewidth", "currentmatrix",
    "currentpoint", "currentrgbcolor", "currentshared",
    "curveto", "cvi", "cvlit", "cvn", "cvr", "cvrs", "cvs",
    "cvx", "def", "defineusername", "dict", "div",
    "dtransform", "dup", "end", "eoclip", "eofill",
    "eoviewclip", "eq", "exch", "exec", "exit", "file",
    "fill", "findfont", "flattenpath", "floor", "flush",
    "flushfile", "for", "forall", "ge", "get",
    "getinterval", "grestore", "gsave", "gstate", "gt",
    "identmatrix", "idiv", "idtransform", "if", "ifelse",
    "image", "imagemask", "index", "ineofill", "infill",
    "initviewclip", "inueofill", "inufill", "invertmatrix",
    "itransform", "known", "le", "length", "lineto", "load",
    "loop", "lt", "makefont", "matrix", "maxlength", "mod",
    "moveto", "mul", "ne", "neg", "newpath", "not", "null",
    "or", "pathbbox", "pathforall", "pop", "print",
    "printobject", "put", "putinterval", "rcurveto", "read",
    "readhexstring", "readline", "readstring", "rectclip",
    "rectfill", "rectstroke", "rectviewclip", "repeat",
    "restore", "rlineto", "rmoveto", "roll", "rotate",
    "round", "save", "scale", "scalefont", "search",
    "selectfont", "setbbox", "setcachedevice",
    "setcachedevice2", "setcharwidth", "setcmykcolor",
    "setdash", "setfont", "setgray", "setgstate",
    "sethsbcolor", "setlinecap", "setlinejoin",
    "setlinewidth", "setmatrix", "setrgbcolor", "setshared",
    "shareddict", "show", "showpage", "stop", "stopped",
    "store", "string", "stringwidth", "stroke",
    "strokepath", "sub", "systemdict", "token", "transform",
    "translate", "truncate", "type", "uappend", "ucache",
    "ueofill", "ufill", "undef", "upath", "userdict",
    "ustroke", "viewclip", "viewclippath", "where",
    "widthshow", "write", "writehexstring", "writeobject",
    "writestring", "wtranslation", "xor", "xshow", "xyshow",
    "yshow", "FontDirectory", "SharedFontDirectory",
    "Courier", "Courier-Bold", "Courier-BoldOblique",
    "Courier-Oblique", "Helvetica", "Helvetica-Bold",
    "Helvetica-BoldOblique", "Helvetica-Oblique", "Symbol",
    "Times-Bold", "Times-BoldItalic", "Times-Italic",
    "Times-Roman", "execuserobject", "currentcolor",
    "currentcolorspace", "currentglobal", "execform",
    "filter", "findresource", "globaldict", "makepattern",
    "setcolor", "setcolorspace", "setglobal",
    "setpagedevice", "setpattern"
  ]

/- The names as byte strings. -/
def systemNames : Array Bytes :=
  (systemNameList.map Bytes.ofText).toArray

end PostScript
