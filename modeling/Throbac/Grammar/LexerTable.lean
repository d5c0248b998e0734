/-!
# The lexer network of the language

The serialized network of the forty lexical rules. Rules 0 to 31 are the fixed words, then come
numbers, digits, strings, truth values, types, names, blanks and comments.
-/
namespace Throbac.Grammar

def lexerTable : List Int := [
    4,0,39,402,6,-1,2,0,7,0,2,1,7,1,2,2,7,2,2,3,7,3,2,4,7,4,2,5,7,5,2,6,7,6,2,7,7,7,2,8,7,8,2,9,7,9,
    2,10,7,10,2,11,7,11,2,12,7,12,2,13,7,13,2,14,7,14,2,15,7,15,2,16,7,16,2,17,7,17,2,18,7,18,2,19,
    7,19,2,20,7,20,2,21,7,21,2,22,7,22,2,23,7,23,2,24,7,24,2,25,7,25,2,26,7,26,2,27,7,27,2,28,7,28,
    2,29,7,29,2,30,7,30,2,31,7,31,2,32,7,32,2,33,7,33,2,34,7,34,2,35,7,35,2,36,7,36,2,37,7,37,2,38,
    7,38,2,39,7,39,1,0,1,0,1,0,1,0,1,0,1,1,1,1,1,2,1,2,1,2,1,2,1,2,1,2,1,2,1,2,1,2,1,2,1,3,1,3,1,3,
    1,3,1,3,1,3,1,3,1,3,1,4,1,4,1,5,1,5,1,6,1,6,1,6,1,6,1,6,1,6,1,6,1,6,1,6,1,6,1,7,1,7,1,8,1,8,1,8,
    1,8,1,8,1,8,1,8,1,8,1,9,1,9,1,9,1,9,1,10,1,10,1,10,1,11,1,11,1,11,1,11,1,11,1,11,1,12,1,12,1,12,
    1,12,1,12,1,12,1,12,1,12,1,12,1,12,1,12,1,12,1,12,1,12,1,12,1,12,1,13,1,13,1,13,1,13,1,13,1,13,
    1,13,1,13,1,13,1,13,1,13,1,13,1,13,1,13,1,13,1,13,1,14,1,14,1,14,1,14,1,14,1,14,1,14,1,14,1,14,
    1,14,1,14,1,14,1,14,1,14,1,14,1,14,1,15,1,15,1,15,1,15,1,15,1,15,1,16,1,16,1,17,1,17,1,18,1,18,
    1,18,1,19,1,19,1,19,1,19,1,19,1,19,1,19,1,20,1,20,1,20,1,20,1,20,1,20,1,20,1,20,1,21,1,21,1,21,
    1,21,1,21,1,21,1,21,1,22,1,22,1,22,1,22,1,22,1,23,1,23,1,23,1,23,1,23,1,23,1,23,1,23,1,23,1,24,
    1,24,1,24,1,24,1,24,1,24,1,25,1,25,1,25,1,25,1,25,1,26,1,26,1,26,1,26,1,26,1,26,1,26,1,26,1,27,
    1,27,1,27,1,27,1,27,1,27,1,28,1,28,1,28,1,28,1,28,1,28,1,28,1,28,1,28,1,28,1,28,1,29,1,29,1,29,
    1,29,1,29,1,29,1,30,1,30,1,30,1,30,1,30,1,30,1,30,1,30,1,30,1,30,1,30,1,31,1,31,1,31,1,31,1,31,
    1,32,1,32,1,32,1,32,5,32,303,8,32,10,32,12,32,306,9,32,1,32,1,32,1,33,1,33,1,33,1,33,1,33,1,33,
    1,33,1,33,1,33,1,33,1,33,1,33,1,33,1,33,1,33,1,33,1,33,1,33,1,33,1,33,1,33,1,33,1,33,3,33,333,8,
    33,1,34,1,34,5,34,337,8,34,10,34,12,34,340,9,34,1,34,1,34,1,35,1,35,1,35,1,35,1,35,1,35,1,35,1,
    35,1,35,1,35,1,35,3,35,355,8,35,1,36,1,36,1,36,1,36,1,36,1,36,1,36,1,36,1,36,1,36,1,36,1,36,1,
    36,1,36,1,36,1,36,1,36,1,36,1,36,1,36,1,36,3,36,378,8,36,1,37,4,37,381,8,37,11,37,12,37,382,1,
    38,4,38,386,8,38,11,38,12,38,387,1,38,1,38,1,39,1,39,1,39,1,39,5,39,396,8,39,10,39,12,39,399,9,
    39,1,39,1,39,0,0,40,1,1,3,2,5,3,7,4,9,5,11,6,13,7,15,8,17,9,19,10,21,11,23,12,25,13,27,14,29,15,
    31,16,33,17,35,18,37,19,39,20,41,21,43,22,45,23,47,24,49,25,51,26,53,27,55,28,57,29,59,30,61,31,
    63,32,65,33,67,0,69,34,71,35,73,36,75,37,77,38,79,39,1,0,4,3,0,43,43,46,46,65,90,1,0,97,122,3,0,
    9,10,13,13,32,32,2,0,10,10,13,13,417,0,1,1,0,0,0,0,3,1,0,0,0,0,5,1,0,0,0,0,7,1,0,0,0,0,9,1,0,0,
    0,0,11,1,0,0,0,0,13,1,0,0,0,0,15,1,0,0,0,0,17,1,0,0,0,0,19,1,0,0,0,0,21,1,0,0,0,0,23,1,0,0,0,0,
    25,1,0,0,0,0,27,1,0,0,0,0,29,1,0,0,0,0,31,1,0,0,0,0,33,1,0,0,0,0,35,1,0,0,0,0,37,1,0,0,0,0,39,1,
    0,0,0,0,41,1,0,0,0,0,43,1,0,0,0,0,45,1,0,0,0,0,47,1,0,0,0,0,49,1,0,0,0,0,51,1,0,0,0,0,53,1,0,0,
    0,0,55,1,0,0,0,0,57,1,0,0,0,0,59,1,0,0,0,0,61,1,0,0,0,0,63,1,0,0,0,0,65,1,0,0,0,0,69,1,0,0,0,0,
    71,1,0,0,0,0,73,1,0,0,0,0,75,1,0,0,0,0,77,1,0,0,0,0,79,1,0,0,0,1,81,1,0,0,0,3,86,1,0,0,0,5,88,1,
    0,0,0,7,98,1,0,0,0,9,106,1,0,0,0,11,108,1,0,0,0,13,110,1,0,0,0,15,120,1,0,0,0,17,122,1,0,0,0,19,
    130,1,0,0,0,21,134,1,0,0,0,23,137,1,0,0,0,25,143,1,0,0,0,27,159,1,0,0,0,29,175,1,0,0,0,31,191,1,
    0,0,0,33,197,1,0,0,0,35,199,1,0,0,0,37,201,1,0,0,0,39,204,1,0,0,0,41,211,1,0,0,0,43,219,1,0,0,0,
    45,226,1,0,0,0,47,231,1,0,0,0,49,240,1,0,0,0,51,246,1,0,0,0,53,251,1,0,0,0,55,259,1,0,0,0,57,
    265,1,0,0,0,59,276,1,0,0,0,61,282,1,0,0,0,63,293,1,0,0,0,65,298,1,0,0,0,67,332,1,0,0,0,69,334,1,
    0,0,0,71,354,1,0,0,0,73,377,1,0,0,0,75,380,1,0,0,0,77,385,1,0,0,0,79,391,1,0,0,0,81,82,5,65,0,0,
    82,83,5,80,0,0,83,84,5,85,0,0,84,85,5,68,0,0,85,2,1,0,0,0,86,87,5,44,0,0,87,4,1,0,0,0,88,89,5,
    68,0,0,89,90,5,69,0,0,90,91,5,70,0,0,91,92,5,73,0,0,92,93,5,78,0,0,93,94,5,73,0,0,94,95,5,84,0,
    0,95,96,5,73,0,0,96,97,5,79,0,0,97,6,1,0,0,0,98,99,5,80,0,0,99,100,5,82,0,0,100,101,5,65,0,0,
    101,102,5,69,0,0,102,103,5,66,0,0,103,104,5,69,0,0,104,105,5,84,0,0,105,8,1,0,0,0,106,107,5,62,
    0,0,107,10,1,0,0,0,108,109,5,60,0,0,109,12,1,0,0,0,110,111,5,77,0,0,111,112,5,85,0,0,112,113,5,
    84,0,0,113,114,5,65,0,0,114,115,5,66,0,0,115,116,5,73,0,0,116,117,5,76,0,0,117,118,5,73,0,0,118,
    119,5,83,0,0,119,14,1,0,0,0,120,121,5,58,0,0,121,16,1,0,0,0,122,123,5,86,0,0,123,124,5,65,0,0,
    124,125,5,76,0,0,125,126,5,79,0,0,126,127,5,82,0,0,127,128,5,85,0,0,128,129,5,77,0,0,129,18,1,0,
    0,0,130,131,5,68,0,0,131,132,5,85,0,0,132,133,5,77,0,0,133,20,1,0,0,0,134,135,5,83,0,0,135,136,
    5,73,0,0,136,22,1,0,0,0,137,138,5,65,0,0,138,139,5,76,0,0,139,140,5,85,0,0,140,141,5,73,0,0,141,
    142,5,68,0,0,142,24,1,0,0,0,143,144,5,78,0,0,144,145,5,85,0,0,145,146,5,77,0,0,146,147,5,69,0,0,
    147,148,5,82,0,0,148,149,5,85,0,0,149,150,5,83,0,0,150,151,5,46,0,0,151,152,5,73,0,0,152,153,5,
    77,0,0,153,154,5,80,0,0,154,155,5,82,0,0,155,156,5,73,0,0,156,157,5,77,0,0,157,158,5,79,0,0,158,
    26,1,0,0,0,159,160,5,76,0,0,160,161,5,79,0,0,161,162,5,67,0,0,162,163,5,85,0,0,163,164,5,84,0,0,
    164,165,5,73,0,0,165,166,5,79,0,0,166,167,5,46,0,0,167,168,5,73,0,0,168,169,5,77,0,0,169,170,5,
    80,0,0,170,171,5,82,0,0,171,172,5,73,0,0,172,173,5,77,0,0,173,174,5,79,0,0,174,28,1,0,0,0,175,
    176,5,86,0,0,176,177,5,69,0,0,177,178,5,82,0,0,178,179,5,73,0,0,179,180,5,84,0,0,180,181,5,65,0,
    0,181,182,5,83,0,0,182,183,5,46,0,0,183,184,5,73,0,0,184,185,5,77,0,0,185,186,5,80,0,0,186,187,
    5,82,0,0,187,188,5,73,0,0,188,189,5,77,0,0,189,190,5,79,0,0,190,30,1,0,0,0,191,192,5,82,0,0,192,
    193,5,69,0,0,193,194,5,68,0,0,194,195,5,69,0,0,195,196,5,79,0,0,196,32,1,0,0,0,197,198,5,40,0,0,
    198,34,1,0,0,0,199,200,5,41,0,0,200,36,1,0,0,0,201,202,5,78,0,0,202,203,5,73,0,0,203,38,1,0,0,0,
    204,205,5,78,0,0,205,206,5,69,0,0,206,207,5,71,0,0,207,208,5,65,0,0,208,209,5,78,0,0,209,210,5,
    83,0,0,210,40,1,0,0,0,211,212,5,67,0,0,212,213,5,79,0,0,213,214,5,78,0,0,214,215,5,71,0,0,215,
    216,5,69,0,0,216,217,5,82,0,0,217,218,5,79,0,0,218,42,1,0,0,0,219,220,5,80,0,0,220,221,5,65,0,0,
    221,222,5,82,0,0,222,223,5,84,0,0,223,224,5,73,0,0,224,225,5,79,0,0,225,44,1,0,0,0,226,227,5,65,
    0,0,227,228,5,68,0,0,228,229,5,68,0,0,229,230,5,79,0,0,230,46,1,0,0,0,231,232,5,83,0,0,232,233,
    5,85,0,0,233,234,5,66,0,0,234,235,5,84,0,0,235,236,5,82,0,0,236,237,5,65,0,0,237,238,5,72,0,0,
    238,239,5,79,0,0,239,48,1,0,0,0,240,241,5,73,0,0,241,242,5,85,0,0,242,243,5,78,0,0,243,244,5,71,
    0,0,244,245,5,79,0,0,245,50,1,0,0,0,246,247,5,73,0,0,247,248,5,68,0,0,248,249,5,69,0,0,249,250,
    5,77,0,0,250,52,1,0,0,0,251,252,5,78,0,0,252,253,5,73,0,0,253,254,5,46,0,0,254,255,5,73,0,0,255,
    256,5,68,0,0,256,257,5,69,0,0,257,258,5,77,0,0,258,54,1,0,0,0,259,260,5,73,0,0,260,261,5,78,0,0,
    261,262,5,70,0,0,262,263,5,82,0,0,263,264,5,65,0,0,264,56,1,0,0,0,265,266,5,73,0,0,266,267,5,78,
    0,0,267,268,5,70,0,0,268,269,5,82,0,0,269,270,5,65,0,0,270,271,5,46,0,0,271,272,5,73,0,0,272,
    273,5,68,0,0,273,274,5,69,0,0,274,275,5,77,0,0,275,58,1,0,0,0,276,277,5,83,0,0,277,278,5,85,0,0,
    278,279,5,80,0,0,279,280,5,82,0,0,280,281,5,65,0,0,281,60,1,0,0,0,282,283,5,83,0,0,283,284,5,85,
    0,0,284,285,5,80,0,0,285,286,5,82,0,0,286,287,5,65,0,0,287,288,5,46,0,0,288,289,5,73,0,0,289,
    290,5,68,0,0,290,291,5,69,0,0,291,292,5,77,0,0,292,62,1,0,0,0,293,294,5,86,0,0,294,295,5,79,0,0,
    295,296,5,67,0,0,296,297,5,79,0,0,297,64,1,0,0,0,298,299,5,46,0,0,299,304,3,67,33,0,300,301,5,
    46,0,0,301,303,3,67,33,0,302,300,1,0,0,0,303,306,1,0,0,0,304,302,1,0,0,0,304,305,1,0,0,0,305,
    307,1,0,0,0,306,304,1,0,0,0,307,308,5,46,0,0,308,66,1,0,0,0,309,310,5,78,0,0,310,311,5,73,0,0,
    311,333,5,76,0,0,312,333,5,73,0,0,313,314,5,73,0,0,314,333,5,73,0,0,315,316,5,73,0,0,316,317,5,
    73,0,0,317,333,5,73,0,0,318,319,5,73,0,0,319,333,5,86,0,0,320,333,5,86,0,0,321,322,5,86,0,0,322,
    333,5,73,0,0,323,324,5,86,0,0,324,325,5,73,0,0,325,333,5,73,0,0,326,327,5,86,0,0,327,328,5,73,0,
    0,328,329,5,73,0,0,329,333,5,73,0,0,330,331,5,73,0,0,331,333,5,88,0,0,332,309,1,0,0,0,332,312,1,
    0,0,0,332,313,1,0,0,0,332,315,1,0,0,0,332,318,1,0,0,0,332,320,1,0,0,0,332,321,1,0,0,0,332,323,1,
    0,0,0,332,326,1,0,0,0,332,330,1,0,0,0,333,68,1,0,0,0,334,338,5,94,0,0,335,337,7,0,0,0,336,335,1,
    0,0,0,337,340,1,0,0,0,338,336,1,0,0,0,338,339,1,0,0,0,339,341,1,0,0,0,340,338,1,0,0,0,341,342,5,
    94,0,0,342,70,1,0,0,0,343,344,5,86,0,0,344,345,5,69,0,0,345,346,5,82,0,0,346,347,5,85,0,0,347,
    355,5,77,0,0,348,349,5,70,0,0,349,350,5,65,0,0,350,351,5,76,0,0,351,352,5,83,0,0,352,353,5,85,0,
    0,353,355,5,77,0,0,354,343,1,0,0,0,354,348,1,0,0,0,355,72,1,0,0,0,356,357,5,78,0,0,357,358,5,85,
    0,0,358,359,5,77,0,0,359,360,5,69,0,0,360,361,5,82,0,0,361,362,5,85,0,0,362,378,5,83,0,0,363,
    364,5,86,0,0,364,365,5,69,0,0,365,366,5,82,0,0,366,367,5,73,0,0,367,368,5,84,0,0,368,369,5,65,0,
    0,369,378,5,83,0,0,370,371,5,76,0,0,371,372,5,79,0,0,372,373,5,67,0,0,373,374,5,85,0,0,374,375,
    5,84,0,0,375,376,5,73,0,0,376,378,5,79,0,0,377,356,1,0,0,0,377,363,1,0,0,0,377,370,1,0,0,0,378,
    74,1,0,0,0,379,381,7,1,0,0,380,379,1,0,0,0,381,382,1,0,0,0,382,380,1,0,0,0,382,383,1,0,0,0,383,
    76,1,0,0,0,384,386,7,2,0,0,385,384,1,0,0,0,386,387,1,0,0,0,387,385,1,0,0,0,387,388,1,0,0,0,388,
    389,1,0,0,0,389,390,6,38,0,0,390,78,1,0,0,0,391,392,5,47,0,0,392,393,5,47,0,0,393,397,1,0,0,0,
    394,396,8,3,0,0,395,394,1,0,0,0,396,399,1,0,0,0,397,395,1,0,0,0,397,398,1,0,0,0,398,400,1,0,0,0,
    399,397,1,0,0,0,400,401,6,39,1,0,401,80,1,0,0,0,9,0,304,332,338,354,377,382,387,397,2,6,0,0,0,1,
    0]

end Throbac.Grammar
